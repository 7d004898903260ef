import NestedResources.Proofs.Store.Exact
import NestedResources.Proofs.Write.BothEnds

/-!
# What a link and an unlink do to members

A membership is kept in one place: in the foreign key of one of the two rows, or in a link of their keys. A
link writes there what makes the one entity a member of the other, an unlink takes it out, and both leave
everything else (`Schema.Detaches.link_and_unlink`). Members are found by comparing columns, so an entity
that holds a key itself has every row for member whose columns are equal to that key. Identities that are
equal need not be the same: 1 and 1.0 are two identities.
-/
namespace NestedResources

/-! ## Equal identities -/

theorem Json.eq_of_sameValue {v w : Json} (hv : v.isExact = true) (hw : w.isExact = true)
    (h : sameValue v w = true) : v = w :=
  have hstring : FieldType.string.isExact = true := rfl
  eq_of_comparesEqual hstring hv hw (comparesEqual_of_sameValue h (comparesEqual_self hstring hw))

/-- Identities whose values are equal as values of columns are. -/
def Identity.Equals (i j : Identity) : Prop :=
  List.Forall₂ (fun v w => sameValue v w = true) i.values j.values

/-- Exact identities that are equal are the same. -/
theorem Identity.Equals.eq {i j : Identity} (h : i.Equals j) (hi : i.IsExact) (hj : j.IsExact) : i = j := by
  obtain ⟨vs⟩ := i
  obtain ⟨ws⟩ := j
  have hvalues : vs = ws := by
    unfold Identity.Equals at h
    unfold Identity.IsExact at hi hj
    dsimp only at h hi hj
    induction h with
    | nil => rfl
    | cons hsame _ ih =>
      obtain ⟨hv, hvs⟩ := List.forall_mem_cons.1 hi
      obtain ⟨hw, hws⟩ := List.forall_mem_cons.1 hj
      rw [Json.eq_of_sameValue hv hw hsame, ih hvs hws]
  rw [hvalues]

/-- A row that holds the values of another one in all identity columns has an equal identity. -/
theorem Resource.equals_of_hasValues {r : Resource} {row member : Record} {k l : Identity}
    {columns : List String} {values : List Json} (hk : r.identityOf? row = some k)
    (hl : r.identityOf? member = some l) (hidentity : ∀ c ∈ r.identityColumns, c ∈ columns)
    (hvalues : member.values? columns = some values) (hholds : row.hasValues columns values = true) :
    k.Equals l := by
  have hfields : ∀ f ∈ r.identityFields, f.column ∈ columns :=
    fun f hf => hidentity _ (List.mem_map_of_mem hf)
  have hvs := Resource.identityOf?_eq_some.1 hk
  have hws := Resource.identityOf?_eq_some.1 hl
  unfold Identity.Equals
  generalize r.identityFields = fields at hfields hvs hws
  generalize k.values = vs at hvs
  generalize l.values = ws at hws
  induction hvs generalizing ws with
  | nil =>
    cases hws
    exact .nil
  | @cons f v fields vs hv _ ih =>
    cases hws with
    | @cons _ w _ ws hw hws =>
      obtain ⟨hf, hfs⟩ := List.forall_mem_cons.1 hfields
      obtain ⟨u, hu, hsame⟩ := Record.sameValue_of_hasValues hvalues hholds hf hw
      cases hu.symm.trans (Record.get?_of_value? hv)
      exact .cons hsame (ih hfs ws hws)

/-! ## Relationships that detach -/

/-- A relationship that deletes nothing it detaches. A foreign key of it is written once in every column,
outside the identity of the row that holds it and, within one resource, outside of what it refers to. -/
structure Schema.Detaches (s : Schema) (r target : Resource) (rel : Relationship) : Prop where
  resource : s.resource? r.name = some r
  relationship : r.relationship? rel.name = some rel
  leads : s.target? rel = some target
  detaches : rel.cascade = .detach
  once : rel.join.written.Nodup
  notIdentity : ∀ c ∈ rel.join.written,
    c ∉ (if rel.join.isForeignKey then r else target).identityColumns
  notReferenced : target.name = r.name → ∀ c ∈ rel.join.near, c ∉ rel.join.far

section Detaches

variable {s : Schema} {r target : Resource} {rel : Relationship} (h : s.Detaches r target rel)
include h

theorem Schema.Detaches.declares : s.Declares r rel := declares_of_relationship? h.resource h.relationship

theorem Schema.Detaches.resource_target : s.resource? target.name = some target := resource?_of_target? h.leads

end Detaches

/-- The same tables but for the place of one membership: the columns of the foreign key in the row that holds
it, or the link of the two entities. -/
def Tables.AgreesBeside (t u : Tables) (r target : Resource) (rel : Relationship) (i j : Identity) : Prop :=
  match rel.join with
  | .foreignKey own _ => t.AgreesBut r.name i.key own u
  | .reverse _ held => t.AgreesBut target.name j.key held u
  | .association table own other => (∀ name key, u.rowAt? name key = t.rowAt? name key) ∧
      ∀ name link, (name = table → link ≠ Progress.linkOf own other i j) →
        (link ∈ (u.linksOf name).links ↔ link ∈ (t.linksOf name).links)

/-- What a link of two entities leaves, with the row of the first one before and after. -/
structure Linking (s : Schema) (r target : Resource) (rel : Relationship) (i j : Identity) (t u : Tables)
    (old new : Record) : Prop where
  before : t.row? r.name i = some old
  after : u.row? r.name i = some new
  member : j.key ∈ u.memberKeys s r target new rel
  kept : rel.join.isForeignKey = false → ∀ key ≠ j.key,
    (key ∈ u.memberKeys s r target new rel ↔ key ∈ t.memberKeys s r target old rel)
  /-- A foreign key that covers the identity of the target leaves no members but those of equal identity. -/
  replaced : rel.join.isForeignKey = true → (∀ c ∈ target.identityColumns, c ∈ rel.join.far) →
    ∀ key ∈ u.memberKeys s r target new rel, ∃ row member k l,
      t.rowAt? target.name key = some row ∧ target.identityOf? row = some k ∧
      t.row? target.name j = some member ∧ target.identityOf? member = some l ∧ k.Equals l ∧
      (k.IsExact → l.IsExact → key = j.key)
  beside : t.AgreesBeside u r target rel i j

/-- What an unlink of two entities leaves. -/
structure Unlinking (s : Schema) (r target : Resource) (rel : Relationship) (i j : Identity) (t u : Tables)
    (old new : Record) : Prop where
  before : t.row? r.name i = some old
  after : u.row? r.name i = some new
  gone : j.key ∉ u.memberKeys s r target new rel
  kept : rel.join.isForeignKey = false → ∀ key ≠ j.key,
    (key ∈ u.memberKeys s r target new rel ↔ key ∈ t.memberKeys s r target old rel)
  idle : j.key ∉ t.memberKeys s r target old rel → u = t
  beside : t.AgreesBeside u r target rel i j

/-- Columns pair two rows as long as the columns stay. -/
theorem Join.pairs_congr {join : Join} (hjoin : join.table? = none) {t u : Tables} {key other : String}
    {record record' member member' : Record} (hnear : ∀ c ∈ join.near, record'.get? c = record.get? c)
    (hfar : ∀ c ∈ join.far, member'.get? c = member.get? c) :
    join.Pairs u key record' other member' ↔ join.Pairs t key record other member := by
  cases join with
  | association table own far => cases hjoin
  | foreignKey own far | reverse own far =>
    have hvalues : record'.values? own = record.values? own := Record.values?_congr hnear
    have hholds : ∀ vs, member'.hasValues far vs = member.hasValues far vs :=
      fun vs => Record.hasValues_congr hfar vs
    rw [Pairs, Pairs, hvalues]
    exact exists_congr fun vs => and_congr_right fun _ => by rw [hholds]

/-- A foreign key that was just written pairs its row with those that hold what was written. -/
theorem Join.pairs_assign {own referenced : List String} {values : List Json} {t : Tables} {key other : String}
    {record member : Record} (honce : own.Nodup) (hlength : own.length = values.length)
    (hvalues : ∀ v ∈ values, v ≠ .null) :
    (Join.foreignKey own referenced).Pairs t key (record.assign (own.zip values)).1 other member ↔
      member.hasValues referenced values = true := by
  obtain ⟨vs, hvs, hsame⟩ := record.values?_assign honce hlength hvalues
  rw [Pairs, hvs, ← Record.hasValues_same hsame]
  simp

/-- Who has the values of a member in all identity columns has an identity that is equal to that of the
member. -/
theorem Tables.Filed.equals_of_hasValues {s : Schema} {t : Tables} {target : Resource} {key : String}
    {j : Identity} {row member : Record} {columns : List String} {values : List Json} (hfiled : t.Filed s)
    (htarget : s.resource? target.name = some target) (hrow : t.rowAt? target.name key = some row)
    (hj : t.row? target.name j = some member) (hidentity : ∀ c ∈ target.identityColumns, c ∈ columns)
    (hvalues : member.values? columns = some values) (hholds : row.hasValues columns values = true) :
    ∃ k l, target.identityOf? row = some k ∧ target.identityOf? member = some l ∧ k.Equals l ∧
      (k.IsExact → l.IsExact → key = j.key) := by
  obtain ⟨k, hk, rfl⟩ := hfiled _ _ _ _ htarget hrow
  obtain ⟨l, hl, hkey⟩ := hfiled _ _ _ _ htarget hj
  have hequals := target.equals_of_hasValues hk hl hidentity hvalues hholds
  exact ⟨k, l, hk, hl, hequals, fun hkexact hlexact => by rw [hequals.eq hkexact hlexact, hkey]⟩

/-! ## Rows that are rewritten -/

namespace Tables

variable {s : Schema} {t u : Tables} {r target : Resource} {rel : Relationship} {record : Record}
  {f : Record → Record} {name key i j : String} {columns own far : List String}

theorem Rewrites.agreesBut (h : t.Rewrites u name key f) (hf : ∀ old, ∀ c ∉ columns, (f old).get? c = old.get? c) :
    t.AgreesBut name key columns u := by
  refine ⟨fun n k hother => by rw [h.2, if_neg hother], ?_, h.1⟩
  rw [h.2, if_pos ⟨rfl, rfl⟩]
  cases t.rowAt? name key with
  | none => exact .none
  | some old => exact .some fun c hc => hf old c hc

/-- Writing a foreign key of an entity decides about all its members. -/
theorem Rewrites.memberKeys_own (hs : s.Detaches r target rel) (hjoin : rel.join = .foreignKey own far)
    (hfiled : t.Filed s) (hrow : t.rowAt? r.name i = some record) (h : t.Rewrites u r.name i f)
    (hf : ∀ old, ∀ c ∉ own, (f old).get? c = old.get? c) :
    u.rowAt? r.name i = some (f record) ∧ ∀ key, key ∈ u.memberKeys s r target (f record) rel ↔
      ∃ row, t.rowAt? target.name key = some row ∧ rel.join.Pairs t i (f record) key row := by
  have hnew : u.rowAt? r.name i = some (f record) := by
    rw [h.2, if_pos ⟨rfl, rfl⟩, hrow]
    rfl
  have hidentity := hs.notIdentity
  have hreferenced := hs.notReferenced
  rw [hjoin] at hidentity hreferenced
  have hfiledAfter : u.Filed s := hfiled.rewrites hs.resource h fun old c hc =>
    hf old c fun hmem => hidentity c hmem hc
  have htable : rel.join.table? = none := by rw [hjoin]; rfl
  refine ⟨hnew, fun key => ?_⟩
  rw [mem_memberKeys_iff_pairs hfiledAfter hs.resource hs.leads hnew, h.2]
  split
  · rename_i hsame
    cases t.rowAt? target.name key with
    | none => simp
    | some old =>
      simp only [Option.map_some, Option.some.injEq, exists_eq_left']
      refine Join.pairs_congr htable (fun _ _ => rfl) fun c hc => hf old c fun hmem => ?_
      rw [hjoin] at hc
      exact hreferenced hsame.1 c hmem hc
  · exact exists_congr fun row => and_congr_right fun _ => Join.pairs_congr htable (fun _ _ => rfl) fun _ _ => rfl

/-- Writing a foreign key that a row of the target holds decides about this row and leaves the other members. -/
theorem Rewrites.memberKeys_held (hs : s.Detaches r target rel) (hjoin : rel.join = .reverse own far)
    (hfiled : t.Filed s) (hrow : t.rowAt? r.name i = some record) (h : t.Rewrites u target.name j f)
    (hf : ∀ old, ∀ c ∉ far, (f old).get? c = old.get? c) :
    ∃ new, u.rowAt? r.name i = some new ∧ ∀ key, key ∈ u.memberKeys s r target new rel ↔
      if key = j then ∃ row, t.rowAt? target.name j = some row ∧ rel.join.Pairs t i record j (f row)
      else key ∈ t.memberKeys s r target record rel := by
  obtain ⟨new, hnew, hsame⟩ := (h.agreesBut hf).exists_row hrow
  have hidentity := hs.notIdentity
  have hreferenced := hs.notReferenced
  rw [hjoin] at hidentity hreferenced
  have hfiledAfter : u.Filed s := hfiled.rewrites hs.resource_target h fun old c hc =>
    hf old c fun hmem => hidentity c hmem hc
  have htable : rel.join.table? = none := by rw [hjoin]; rfl
  -- The entity may be a row of the target itself, but what its members refer to is not written.
  have hnear : ∀ c ∈ rel.join.near, new.get? c = record.get? c := by
    rw [hjoin]
    exact fun c hc => hsame c fun hname _ => hreferenced hname.symm c hc
  refine ⟨new, hnew, fun key => ?_⟩
  rw [mem_memberKeys_iff_pairs hfiledAfter hs.resource hs.leads hnew, h.2]
  by_cases hkey : key = j
  · subst hkey
    rw [if_pos ⟨rfl, rfl⟩, if_pos rfl]
    cases t.rowAt? target.name key with
    | none => simp
    | some old =>
      simp only [Option.map_some, Option.some.injEq, exists_eq_left']
      exact Join.pairs_congr htable hnear fun _ _ => rfl
  · rw [if_neg fun hboth => hkey hboth.2, if_neg hkey,
      mem_memberKeys_iff_pairs hfiled hs.resource hs.leads hrow]
    exact exists_congr fun row => and_congr_right fun _ => Join.pairs_congr htable hnear fun _ _ => rfl

end Tables

/-! ## One membership -/

namespace Progress

theorem rewrites_assign (p : Progress) (name : String) (i : Identity) (columns : List String)
    (values : List Json) : p.tables.Rewrites (p.assign name i columns values).tables name i.key
      fun row => (row.assign (columns.zip values)).1 :=
  ⟨p.linksOf_assign name i columns values, p.rowAt?_assign name i columns values⟩

theorem rewrites_clear (p : Progress) (name : String) (i : Identity) (columns : List String) :
    p.tables.Rewrites (p.clear name i columns).tables name i.key (·.cleared columns) :=
  ⟨p.linksOf_clear name i columns, p.rowAt?_clear name i columns⟩

variable {s : Schema} {p q : Progress} {r target : Resource} {rel : Relationship} {i j : Identity}
  {record member : Record} (hs : s.Detaches r target rel) (hfiled : p.tables.Filed s)
  (hi : p.tables.row? r.name i = some record)
include hs hfiled hi

section Own

variable {own referenced : List String} (hjoin : rel.join = .foreignKey own referenced)
include hjoin

theorem linking_own (hj : p.tables.row? target.name j = some member)
    (h : p.attach r target rel i j record member = .ok q) :
    ∃ new, Linking s r target rel i j p.tables q.tables record new := by
  obtain ⟨wanted, hwanted, rfl⟩ := (attach_own hjoin).1 h
  have honce : own.Nodup := by
    have hwritten := hs.once
    rwa [hjoin] at hwritten
  have hlength : own.length = wanted.length :=
    (hs.declares.hasKey_own hjoin).columns.2.trans (Record.length_values? hwanted).symm
  have hrewrites := p.rewrites_assign r.name i own wanted
  have hf : ∀ old : Record, ∀ c ∉ own, (old.assign (own.zip wanted)).1.get? c = old.get? c :=
    fun old c hc => old.get?_assign_of_notMem hc wanted
  obtain ⟨hnew, hkeys⟩ := hrewrites.memberKeys_own hs hjoin hfiled hi hf
  simp only [hjoin, Join.pairs_assign honce hlength (Record.ne_null_of_values? hwanted)] at hkeys
  refine ⟨_, hi, hnew, (hkeys j.key).2 ⟨member, hj, Record.hasValues_of_values? hwanted⟩, ?_, ?_, ?_⟩
  · intro hkind
    rw [hjoin] at hkind
    cases hkind
  · intro _ hidentity key hkey
    rw [hjoin] at hidentity
    obtain ⟨row, hrow, hholds⟩ := (hkeys key).1 hkey
    obtain ⟨k, l, hk, hl, hequals⟩ :=
      hfiled.equals_of_hasValues hs.resource_target hrow hj hidentity hwanted hholds
    exact ⟨row, member, k, l, hrow, hk, hj, hl, hequals⟩
  · rw [Tables.AgreesBeside, hjoin]
    exact hrewrites.agreesBut hf

theorem unlinking_own (hmember : j.key ∈ p.tables.memberKeys s r target record rel) :
    ∃ new, Unlinking s r target rel i j p.tables (p.detach r target rel i j).tables record new := by
  have hkey : s.HasKey ⟨r.name, own, rel.target, referenced⟩ := hs.declares.hasKey_own hjoin
  have hdetach : p.detach r target rel i j = p.clear r.name i own := by simp only [detach, hjoin]
  have hrewrites := p.rewrites_clear r.name i own
  have hf : ∀ old : Record, ∀ c ∉ own, (old.cleared own).get? c = old.get? c :=
    fun old c hc => by rw [Record.get?_cleared, if_neg hc]
  obtain ⟨hnew, hkeys⟩ := hrewrites.memberKeys_own hs hjoin hfiled hi hf
  rw [hdetach]
  refine ⟨_, hi, hnew, fun hmem => ?_, ?_, fun hnot => absurd hmember hnot, ?_⟩
  · obtain ⟨row, -, hpairs⟩ := (hkeys j.key).1 hmem
    rw [hjoin] at hpairs
    obtain ⟨vs, hvs, -⟩ := hpairs
    cases (record.values?_cleared hkey.columns.1).symm.trans hvs
  · intro hkind
    rw [hjoin] at hkind
    cases hkind
  · rw [Tables.AgreesBeside, hjoin]
    exact hrewrites.agreesBut hf

end Own

section Held

variable {own held : List String} (hjoin : rel.join = .reverse own held)
include hjoin

theorem linking_held (hj : p.tables.row? target.name j = some member)
    (h : p.attach r target rel i j record member = .ok q) :
    ∃ new, Linking s r target rel i j p.tables q.tables record new := by
  obtain ⟨wanted, hwanted, rfl⟩ := (attach_held hjoin).1 h
  have honce : held.Nodup := by
    have hwritten := hs.once
    rwa [hjoin] at hwritten
  have hlength : held.length = wanted.length :=
    (hs.declares.hasKey_held hjoin).columns.2.trans (Record.length_values? hwanted).symm
  have hrewrites := p.rewrites_assign target.name j held wanted
  have hf : ∀ old : Record, ∀ c ∉ held, (old.assign (held.zip wanted)).1.get? c = old.get? c :=
    fun old c hc => old.get?_assign_of_notMem hc wanted
  obtain ⟨new, hnew, hkeys⟩ := hrewrites.memberKeys_held hs hjoin hfiled hi hf
  refine ⟨new, hi, hnew, (hkeys j.key).2 ?_, fun _ key hkey => ?_, ?_, ?_⟩
  · rw [if_pos rfl, hjoin]
    exact ⟨member, hj, wanted, hwanted, Record.hasValues_assign honce hlength⟩
  · rw [hkeys, if_neg hkey]
  · intro hkind
    rw [hjoin] at hkind
    cases hkind
  · rw [Tables.AgreesBeside, hjoin]
    exact hrewrites.agreesBut hf

theorem unlinking_held (hmember : j.key ∈ p.tables.memberKeys s r target record rel) :
    ∃ new, Unlinking s r target rel i j p.tables (p.detach r target rel i j).tables record new := by
  have hkey : s.HasKey ⟨rel.target, held, r.name, own⟩ := hs.declares.hasKey_held hjoin
  have hdetach : p.detach r target rel i j = p.clear target.name j held := by
    simp only [detach, hjoin, if_pos hs.detaches]
  have hrewrites := p.rewrites_clear target.name j held
  have hf : ∀ old : Record, ∀ c ∉ held, (old.cleared held).get? c = old.get? c :=
    fun old c hc => by rw [Record.get?_cleared, if_neg hc]
  obtain ⟨new, hnew, hkeys⟩ := hrewrites.memberKeys_held hs hjoin hfiled hi hf
  rw [hdetach]
  refine ⟨new, hi, hnew, fun hmem => ?_, fun _ key hkey => ?_, fun hnot => absurd hmember hnot, ?_⟩
  · rw [hkeys, if_pos rfl, hjoin] at hmem
    obtain ⟨row, -, hpairs⟩ := hmem
    exact ForeignKey.not_points_of_null hkey
      (fun c hc => by rw [Record.get?_cleared, if_pos hc]) hpairs
  · rw [hkeys, if_neg hkey]
  · rw [Tables.AgreesBeside, hjoin]
    exact hrewrites.agreesBut hf

end Held

section Links

variable {table own other : String} (hjoin : rel.join = .association table own other)
  (hpaired : ∀ link ∈ (p.tables.linksOf table).links, ∃ a b, link = Dict.ofList [(own, a), (other, b)])
include hjoin hpaired

theorem linking_links (hj : p.tables.row? target.name j = some member)
    (h : p.attach r target rel i j record member = .ok q) :
    ∃ new, Linking s r target rel i j p.tables q.tables record new := by
  obtain ⟨done, hdone, htables, -⟩ := attach_association hjoin p r target i j record member
  cases hdone.symm.trans h
  have hkeys := Tables.mem_memberKeys_relinked (u := q.tables) (b := true) hfiled hs.declares hs.leads hjoin hi
    hpaired (Option.isSome_of_eq_some hj) (fun resource key => htables ▸ rfl) fun link => by
      rw [htables, Tables.mem_linksOf_putLink]
      split <;> simp [*]
  refine ⟨record, hi, htables ▸ hi, (hkeys j.key).2 ?_, fun _ key hkey => ?_, ?_, ?_⟩
  · rw [if_pos rfl]
  · rw [hkeys, if_neg hkey]
  · intro hkind
    rw [hjoin] at hkind
    cases hkind
  · rw [Tables.AgreesBeside, hjoin]
    refine ⟨fun name key => htables ▸ rfl, fun name link hlink => ?_⟩
    rw [htables]
    by_cases hname : name = table
    · subst hname
      rw [Tables.mem_linksOf_putLink, or_iff_right (hlink rfl)]
    · rw [Tables.linksOf_putLink_of_ne _ hname]

theorem unlinking_links (hmember : j.key ∈ p.tables.memberKeys s r target record rel) :
    ∃ new, Unlinking s r target rel i j p.tables (p.detach r target rel i j).tables record new := by
  obtain ⟨member, hj, -⟩ := (Tables.mem_memberKeys_iff_pairs hfiled hs.resource hs.leads hi).1 hmember
  have hrows := rowAt?_detach_association hjoin p r target i j
  have hkeys := Tables.mem_memberKeys_relinked (b := false) hfiled hs.declares hs.leads hjoin hi hpaired
    (Option.isSome_of_eq_some hj) hrows fun link => by
      rw [mem_linksOf_detach_association hjoin]
      split <;> simp [*]
  refine ⟨record, hi, (hrows ..).trans hi, fun hmem => ?_, fun _ key hkey => ?_,
    fun hnot => absurd hmember hnot, ?_⟩
  · rw [hkeys, if_pos rfl] at hmem
    cases hmem
  · rw [hkeys, if_neg hkey]
  · rw [Tables.AgreesBeside, hjoin]
    refine ⟨hrows, fun name link hlink => ?_⟩
    rw [mem_linksOf_detach_association hjoin, and_iff_left hlink]

end Links

end Progress

/-! ## Commands -/

namespace Schema.Detaches

variable {s : Schema} {r target : Resource} {rel : Relationship} {i j : Identity} {p q : Progress}
  (h : s.Detaches r target rel) (hfiled : p.tables.Filed s)
  (hpaired : ∀ table own other, rel.join = .association table own other →
    ∀ link ∈ (p.tables.linksOf table).links, ∃ a b, link = Dict.ofList [(own, a), (other, b)])
include h hfiled hpaired

theorem linking (hlink : p.apply s (.link (Progress.membershipOf r rel i j)) = .ok q) :
    ∃ old new, Linking s r target rel i j p.tables q.tables old new := by
  obtain ⟨old, member, hi, hj, hattach⟩ :=
    (Progress.ends_membershipOf h.resource h.relationship h.leads p i j).addMember_eq_ok hlink
  refine ⟨old, ?_⟩
  cases hjoin : rel.join with
  | foreignKey own referenced => exact Progress.linking_own h hfiled hi hjoin hj hattach
  | reverse own held => exact Progress.linking_held h hfiled hi hjoin hj hattach
  | association table own other =>
    exact Progress.linking_links h hfiled hi hjoin (hpaired table own other hjoin) hj hattach

theorem unlinking (hunlink : p.apply s (.unlink (Progress.membershipOf r rel i j)) = .ok q) :
    ∃ old new, Unlinking s r target rel i j p.tables q.tables old new := by
  obtain ⟨old, hi, hq⟩ :=
    (Progress.ends_membershipOf h.resource h.relationship h.leads p i j).dropMember_eq_ok hunlink
  refine ⟨old, ?_⟩
  have hkeeps : rel.cascade ≠ .delete := by
    rw [h.detaches]
    decide
  rw [if_neg hkeeps] at hq
  split at hq
  · rename_i hmember
    rw [Progress.isMember_eq_true] at hmember
    subst hq
    cases hjoin : rel.join with
    | foreignKey own referenced => exact Progress.unlinking_own h hfiled hi hjoin hmember
    | reverse own held => exact Progress.unlinking_held h hfiled hi hjoin hmember
    | association table own other =>
      exact Progress.unlinking_links h hfiled hi hjoin (hpaired table own other hjoin) hmember
  · rename_i hnot
    rw [Progress.isMember_eq_true] at hnot
    subst hq
    refine ⟨old, hi, hi, hnot, fun _ _ _ => Iff.rfl, fun _ => rfl, ?_⟩
    unfold Tables.AgreesBeside
    split
    · exact .refl ..
    · exact .refl ..
    · exact ⟨fun _ _ => rfl, fun _ _ _ => Iff.rfl⟩

end Schema.Detaches

/-- After a link that is accepted the one entity is a member of the other, and after an unlink it is none. The
other members stay where members hold the key or links pair them; where the entity holds the key of an
identity itself, only entities of equal identity are members besides. Unlinking who is no member changes
nothing, and nothing changes but the place of the membership. -/
theorem Schema.Detaches.link_and_unlink {s : Schema} {r target : Resource} {rel : Relationship}
    (h : s.Detaches r target rel) {store : Store} (hfiled : store.tables.Filed s)
    (hpaired : ∀ table own other, rel.join = .association table own other →
      ∀ link ∈ (store.tables.linksOf table).links, ∃ a b, link = Dict.ofList [(own, a), (other, b)])
    (i j : Identity) :
    (∀ after report, store.apply s ⟨[.link (Progress.membershipOf r rel i j)]⟩ = .ok (after, report) →
      ∃ old new, Linking s r target rel i j store.tables after.tables old new) ∧
    ∀ after report, store.apply s ⟨[.unlink (Progress.membershipOf r rel i j)]⟩ = .ok (after, report) →
      ∃ old new, Unlinking s r target rel i j store.tables after.tables old new := by
  refine ⟨fun after report hlink => ?_, fun after report hunlink => ?_⟩
  · obtain ⟨q, hq, -, hresult⟩ := Store.apply_single.1 hlink
    cases hresult
    exact h.linking (p := { store }) hfiled hpaired hq
  · obtain ⟨q, hq, -, hresult⟩ := Store.apply_single.1 hunlink
    cases hresult
    exact h.unlinking (p := { store }) hfiled hpaired hq

namespace Music

theorem detaches_toManager : staff.schema.Detaches employees employees toManager where
  resource := rfl
  relationship := rfl
  leads := rfl
  detaches := rfl
  once := by decide
  notIdentity := by decide
  notReferenced := fun _ => by decide

/-- The third employee reports to the second one. Put under the sixth one, it reports to nobody else; taken
from the second one, it no longer reports to it. -/
theorem third_linked_and_unlinked : ∃ moved movedReport freed freedReport third alone,
    Store.apply staff.schema ⟨staffTables employeeRows, 0⟩
        ⟨[.link (Progress.membershipOf employees toManager ⟨[.int 3]⟩ ⟨[.int 6]⟩)]⟩ = .ok (moved, movedReport) ∧
      moved.tables.row? "employees" ⟨[.int 3]⟩ = some third ∧
      (∀ key, key ∈ moved.tables.memberKeys staff.schema employees employees third toManager ↔ key = "6") ∧
      Store.apply staff.schema ⟨staffTables employeeRows, 0⟩
        ⟨[.unlink (Progress.membershipOf employees toManager ⟨[.int 3]⟩ ⟨[.int 2]⟩)]⟩ = .ok (freed, freedReport) ∧
      freed.tables.row? "employees" ⟨[.int 3]⟩ = some alone ∧
      "2" ∉ freed.tables.memberKeys staff.schema employees employees alone toManager := by
  have hfiled : (Store.mk (staffTables employeeRows) 0).tables.Filed staff.schema :=
    filed_staffTables (by decide)
  have hexact : (staffTables employeeRows).FiledExactly employees := by decide
  have hlinked : (Store.apply staff.schema ⟨staffTables employeeRows, 0⟩
      ⟨[.link (Progress.membershipOf employees toManager ⟨[.int 3]⟩ ⟨[.int 6]⟩)]⟩).isOk = true := rfl
  have hunlinked : (Store.apply staff.schema ⟨staffTables employeeRows, 0⟩
      ⟨[.unlink (Progress.membershipOf employees toManager ⟨[.int 3]⟩ ⟨[.int 2]⟩)]⟩).isOk = true := rfl
  obtain ⟨⟨moved, movedReport⟩, hmoved⟩ := Except.exists_of_isOk hlinked
  obtain ⟨⟨freed, freedReport⟩, hfreed⟩ := Except.exists_of_isOk hunlinked
  have hboth := detaches_toManager.link_and_unlink hfiled (fun _ _ _ hjoin => by cases hjoin) ⟨[.int 3]⟩
  obtain ⟨_, third, hlinking⟩ := (hboth ⟨[.int 6]⟩).1 moved movedReport hmoved
  obtain ⟨_, alone, hunlinking⟩ := (hboth ⟨[.int 2]⟩).2 freed freedReport hfreed
  refine ⟨moved, movedReport, freed, freedReport, third, alone, hmoved, hlinking.after, fun key => ⟨fun hkey => ?_,
    fun hkey => hkey ▸ hlinking.member⟩, hfreed, hunlinking.after, hunlinking.gone⟩
  obtain ⟨row, member, k, l, hrow, hk, hj, hl, -, hsame⟩ := hlinking.replaced rfl (by decide) key hkey
  obtain ⟨_, hk', -, hkexact⟩ := hexact _ _ hrow
  obtain ⟨_, hl', -, hlexact⟩ := hexact _ _ hj
  cases hk'.symm.trans hk
  cases hl'.symm.trans hl
  exact hsame hkexact hlexact

/-- Discounts by their rate. -/
def rates : Resource where
  name := "rates"
  identity := ["percent"]
  fields := [field "percent" .number]

def atRate : Relationship where
  name := "rate"
  target := "rates"
  cardinality := .manyToOne
  join := .foreignKey ["discount"] ["percent"]

/-- Accounts and the discount they are given. -/
def accounts : Resource where
  name := "accounts"
  identity := ["account_id"]
  fields := [field "account_id" .integer, { field "discount" .number with optional := true }]
  relationships := [atRate]

def rateSchema : Schema where
  table := .ofList [("accounts", accounts), ("rates", rates)]
  named := by decide
  faultless := by decide

/-- No discount, as a fraction. -/
def noDiscount : Json := .num (.float (.zero false))

/-- An account without discount, where none is there as an integer and as a fraction. -/
def rateTables : Tables :=
  ((Tables.empty.putRow "accounts" "1" (.ofList [("account_id", .int 1), ("discount", noDiscount)])).putRow
    "rates" "0" (.ofList [("percent", .int 0)])).putRow "rates" "0.0" (.ofList [("percent", noDiscount)])

theorem detaches_atRate : rateSchema.Detaches accounts rates atRate where
  resource := rfl
  relationship := rfl
  leads := rfl
  detaches := rfl
  once := by decide
  notIdentity := by decide
  notReferenced := fun _ => by decide

theorem filed_rateTables : rateTables.Filed rateSchema := by
  refine (((Tables.filed_empty rateSchema).putRow fun r hr => ?_).putRow fun r hr => ?_).putRow fun r hr => ?_
  · cases hr
    exact ⟨⟨[.int 1]⟩, rfl, rfl⟩
  · cases hr
    exact ⟨⟨[.int 0]⟩, rfl, rfl⟩
  · cases hr
    exact ⟨⟨[noDiscount]⟩, rfl, rfl⟩

/-- Of two equal rates the one that an account is not linked to remains its rate as well. -/
theorem equal_rate_remains : ∃ old after report new,
    rateSchema.Detaches accounts rates atRate ∧ rateTables.Filed rateSchema ∧
      (∀ c ∈ rates.identityColumns, c ∈ atRate.join.far) ∧
      rateTables.row? "accounts" ⟨[.int 1]⟩ = some old ∧
      "0.0" ∈ rateTables.memberKeys rateSchema accounts rates old atRate ∧
      Store.apply rateSchema ⟨rateTables, 0⟩
        ⟨[.link (Progress.membershipOf accounts atRate ⟨[.int 1]⟩ ⟨[.int 0]⟩)]⟩ = .ok (after, report) ∧
      after.tables.row? "accounts" ⟨[.int 1]⟩ = some new ∧
      "0" ∈ after.tables.memberKeys rateSchema accounts rates new atRate ∧
      "0.0" ∈ after.tables.memberKeys rateSchema accounts rates new atRate := by
  have hrow : (rateTables.row? "accounts" ⟨[.int 1]⟩).any fun old =>
      decide ("0.0" ∈ rateTables.memberKeys rateSchema accounts rates old atRate) := rfl
  have hlinked : (Store.apply rateSchema ⟨rateTables, 0⟩
      ⟨[.link (Progress.membershipOf accounts atRate ⟨[.int 1]⟩ ⟨[.int 0]⟩)]⟩).toOption.any fun done =>
        (done.1.tables.row? "accounts" ⟨[.int 1]⟩).any fun new =>
          decide ("0" ∈ done.1.tables.memberKeys rateSchema accounts rates new atRate ∧
            "0.0" ∈ done.1.tables.memberKeys rateSchema accounts rates new atRate) := rfl
  obtain ⟨old, hold, hmember⟩ := (Option.any_eq_true _ _).1 hrow
  obtain ⟨⟨after, report⟩, hdone, hleft⟩ := (Option.any_eq_true _ _).1 hlinked
  obtain ⟨new, hnew, hmembers⟩ := (Option.any_eq_true _ _).1 hleft
  obtain ⟨hlinkedTo, hremains⟩ := of_decide_eq_true hmembers
  exact ⟨old, after, report, new, detaches_atRate, filed_rateTables, by decide, hold,
    of_decide_eq_true hmember, Except.toOption_eq_some.1 hdone, hnew, hlinkedTo, hremains⟩

end Music

end NestedResources
