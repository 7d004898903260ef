import Mathlib.Logic.Function.Basic
import NestedResources.Proofs.Store.Members
import NestedResources.Proofs.Store.Release
import NestedResources.Proofs.Store.Rewrite

/-!
# Memberships after links and unlinks

A relationship to several entities that only detaches them is a set of keys. A link adds one key to the
set and an unlink takes one out; nothing else about the relationship changes (`Progress.Holds.change`), so
a sequence of changes is a fold over the set (`Progress.Holds.changes`).
-/
namespace NestedResources

/-- The columns of the target by which a relationship finds its members. -/
def Join.held : Join → List String
  | .reverse _ held => held
  | _ => []

/-- The columns that the members of a relationship refer to. -/
def Join.referenced : Join → List String
  | .reverse own _ => own
  | _ => []

/-- A relationship to several entities that are detached from it and not deleted. What its members refer
to it by are optional columns, apart from their identities and from what is referred to. -/
structure Schema.Collects (s : Schema) (r target : Resource) (rel : Relationship) : Prop where
  resource : s.resource? r.name = some r
  relationship : r.relationship? rel.name = some rel
  leads : s.target? rel = some target
  many : rel.isMany = true
  detaches : rel.cascade = .detach
  notOwn : rel.join.isForeignKey = false
  once : rel.join.held.Nodup
  notIdentity : ∀ c ∈ rel.join.held, c ∉ target.identityColumns
  notReferenced : target.name = r.name → ∀ c ∈ rel.join.held, c ∉ rel.join.referenced
  optional : ∀ f ∈ target.fields, f.column ∈ rel.join.held → f.optional = true

theorem Schema.Collects.declares {s : Schema} {r target : Resource} {rel : Relationship}
    (hs : s.Collects r target rel) : s.Declares r rel :=
  declares_of_relationship? hs.resource hs.relationship

/-- Rows are in order, the entity exists, what its members refer to is set, and links have the two columns
of the relationship and no others. -/
structure Tables.Relates (t : Tables) (s : Schema) (r : Resource) (rel : Relationship) (i : Identity)
    (record : Record) : Prop where
  filed : t.Filed s
  row : t.row? r.name i = some record
  referenced : (record.values? rel.join.referenced).isSome = true
  paired : ∀ table own other, rel.join = .association table own other →
    ∀ link ∈ (t.linksOf table).links, ∃ a b, link = Dict.ofList [(own, a), (other, b)]

/-- Every row of a resource has its required columns. -/
def Tables.Carries (t : Tables) (r : Resource) : Prop :=
  ∀ key record, t.rowAt? r.name key = some record →
    ∀ f ∈ r.fields, f.optional = false → (record.value? f.column).isSome = true

/-! ## Links -/

section Links

variable {own other a b : String}

theorem get?_linkOf_own (h : own ≠ other) :
    (Dict.ofList [(own, a), (other, b)]).get? own = some a := by
  change Entries.get? own (Entries.insert other b (Entries.insert own a [])) = some a
  rw [Entries.get?_insert_of_ne h, Entries.get?_insert_self]

theorem get?_linkOf_other : (Dict.ofList [(own, a), (other, b)]).get? other = some b := by
  change Entries.get? other (Entries.insert other b (Entries.insert own a [])) = some b
  rw [Entries.get?_insert_self]

end Links

theorem Schema.ne_of_association {s : Schema} {r : Resource} {rel : Relationship} (h : s.Declares r rel)
    {table own other : String} (hjoin : rel.join = .association table own other) : own ≠ other := by
  obtain ⟨target, htarget, -, -⟩ := exists_target h
  have hfault := joinFault?_eq_none h.1 h.2 htarget
  simp only [Resource.joinFault?, hjoin] at hfault
  split at hfault
  · cases hfault
  · rename_i hvalid
    exact fun he => hvalid (.inr (.inr (.inr he)))

namespace Record

/-- Columns that are assigned once have what was assigned. -/
theorem same_of_assign {record : Record} {assignments : List (String × Json)}
    (h : (assignments.map Prod.fst).Nodup) :
    ∀ a ∈ assignments, ∃ v, (record.assign assignments).1.get? a.1 = some v ∧ v.same a.2 = true := by
  rw [assign_eq_foldl]
  generalize false = changed
  induction assignments generalizing record changed with
  | nil => exact fun a ha => by cases ha
  | cons b rest ih =>
    obtain ⟨hnew, hrest⟩ := List.nodup_cons.1 h
    intro a ha
    rw [List.foldl_cons]
    rcases List.mem_cons.1 ha with rfl | ha
    · have hstays : ∀ next : Record × Bool,
          (rest.foldl put next).1.get? a.1 = next.1.get? a.1 := fun next => by
        have hkept := get?_foldl_put_of_notMem next.1 hnew next.2
        exact hkept
      rw [hstays]
      rcases put_cases record changed a with ⟨v, hv, hsame, hput⟩ | hput
      · rw [hput]
        exact ⟨v, hv, hsame⟩
      · rw [hput]
        exact ⟨a.2, Dict.get?_insert_self .., Json.same_refl a.2⟩
    · exact ih hrest _ a ha

theorem hasValues_assign {record : Record} {columns : List String} {values : List Json}
    (hnodup : columns.Nodup) (hlength : columns.length = values.length) :
    (record.assign (columns.zip values)).1.hasValues columns values = true := by
  refine hasValues_iff.2 fun p hp => ?_
  have hfst : ((columns.zip values).map Prod.fst).Nodup := by
    rwa [List.map_fst_zip (Nat.le_of_eq hlength)]
  obtain ⟨v, hv, hsame⟩ := same_of_assign hfst p hp
  exact ⟨v, hv, by rw [sameValue, hsame, Bool.true_or]⟩

end Record

theorem Tables.mem_linksOf_putLink (t : Tables) (table : String) (added link : Link) :
    link ∈ ((t.putLink table added).linksOf table).links ↔
      link = added ∨ link ∈ (t.linksOf table).links := by
  have hmem : link ∈ (t.linksOf table).insert added ↔ link = added ∨ link ∈ t.linksOf table :=
    LinkTable.mem_insert
  rw [linksOf, putLink, Dict.get?_insert_self, Option.getD_some]
  exact hmem

theorem Tables.linksOf_putLink_of_ne (t : Tables) {table name : String} (h : name ≠ table) (added : Link) :
    (t.putLink table added).linksOf name = t.linksOf name := by
  rw [linksOf, putLink, Dict.get?_insert_of_ne _ h]
  rfl

/-! ## One row or one link -/

namespace Tables

variable {s : Schema} {r target : Resource} {rel : Relationship} {i : Identity} {t u : Tables}
  {record : Record} {key : String}

/-- Rows stay, but for one that is changed. -/
def Rewrites (t u : Tables) (name key : String) (f : Record → Record) : Prop :=
  (∀ table, u.linksOf table = t.linksOf table) ∧ ∀ resource other, u.rowAt? resource other =
    if resource = name ∧ other = key then (t.rowAt? resource other).map f else t.rowAt? resource other

/-- A row that is changed in no identity column stays under its own key. -/
theorem Filed.rewrites (h : t.Filed s) (hr : s.resource? r.name = some r) {f : Record → Record}
    (hu : t.Rewrites u r.name key f)
    (hf : ∀ old, ∀ c ∈ r.identityColumns, (f old).get? c = old.get? c) : u.Filed s := by
  intro name other r' row hr' hrow
  rw [hu.2] at hrow
  split at hrow
  · rename_i hsame
    obtain ⟨rfl, rfl⟩ := hsame
    cases hr.symm.trans hr'
    obtain ⟨old, hold, rfl⟩ := Option.map_eq_some_iff.1 hrow
    rw [r.identityOf?_congr (hf old)]
    exact h r.name other r old hr hold
  · exact h name other r' row hr' hrow

/-- Writing what a relationship finds its members by decides about one member and leaves the others. -/
theorem Relates.rewrites (h : t.Relates s r rel i record) (hs : s.Collects r target rel)
    {own held : List String} (hjoin : rel.join = .reverse own held) {f : Record → Record}
    (hu : t.Rewrites u target.name key f) (hf : ∀ old, ∀ c ∉ held, (f old).get? c = old.get? c) :
    ∃ record', u.Relates s r rel i record' ∧ record'.values? own = record.values? own ∧
      ∀ other, other ∈ u.memberKeys s r target record' rel ↔ ∃ row, u.rowAt? target.name other = some row ∧
        ForeignKey.Points ⟨rel.target, held, r.name, own⟩ row record := by
  have hheld : rel.join.held = held := by rw [hjoin, Join.held]
  have hreferenced : rel.join.referenced = own := by rw [hjoin, Join.referenced]
  have hidentity : ∀ old, ∀ c ∈ target.identityColumns, (f old).get? c = old.get? c := fun old c hc =>
    hf old c fun hmem => hs.notIdentity c (hheld ▸ hmem) hc
  have hfiled : u.Filed s := h.filed.rewrites (Schema.resource?_of_target? hs.leads) hu hidentity
  -- The entity may be a member of its own relationship.
  have hrow : ∃ record', u.row? r.name i = some record' ∧ record'.values? own = record.values? own := by
    rw [row?, hu.2]
    have hold := h.row
    rw [row?] at hold
    split
    · rename_i hsame
      rw [hold]
      exact ⟨f record, rfl, Record.values?_congr fun c hc => hf record c fun hmem =>
        hs.notReferenced hsame.1.symm c (hheld ▸ hmem) (hreferenced ▸ hc)⟩
    · exact ⟨record, hold, rfl⟩
  obtain ⟨record', hrow', hvalues⟩ := hrow
  refine ⟨record', ⟨hfiled, hrow', ?_, fun table own' other hj => ?_⟩, hvalues, fun other => ?_⟩
  · rw [hreferenced, hvalues, ← hreferenced]
    exact h.referenced
  · rw [hjoin] at hj
    cases hj
  · rw [mem_memberKeys_of_reverse hfiled hs.leads hjoin]
    simp only [ForeignKey.Points, hvalues]

/-- Writing the row of the entity in other columns leaves its members. -/
theorem Relates.putRow (h : t.Relates s r rel i record) (hs : s.Collects r target rel) {next : Record}
    (hidentity : ∃ j, r.identityOf? next = some j ∧ j.key = i.key)
    (hreferenced : ∀ c ∈ rel.join.referenced, next.get? c = record.get? c)
    (hheld : target.name = r.name → ∀ c ∈ rel.join.held, next.get? c = record.get? c) :
    (t.putRow r.name i.key next).Relates s r rel i next ∧
      ∀ key, key ∈ (t.putRow r.name i.key next).memberKeys s r target next rel ↔
        key ∈ t.memberKeys s r target record rel := by
  have hfiled : (t.putRow r.name i.key next).Filed s := h.filed.putRow fun r' hr' => by
    cases hs.resource.symm.trans hr'
    exact hidentity
  have hvalues : next.values? rel.join.referenced = record.values? rel.join.referenced :=
    Record.values?_congr hreferenced
  have hself : target.name = r.name → t.rowAt? target.name i.key = some record := fun hname =>
    hname ▸ h.row
  refine ⟨⟨hfiled, rowAt?_putRow_self .., hvalues ▸ h.referenced, h.paired⟩, fun key => ?_⟩
  cases hjoin : rel.join with
  | foreignKey own referenced =>
    have hnotOwn := hs.notOwn
    rw [hjoin] at hnotOwn
    cases hnotOwn
  | reverse own held =>
    simp only [hjoin, Join.referenced, Join.held] at hvalues hheld
    rw [mem_memberKeys_of_reverse hfiled hs.leads hjoin,
      mem_memberKeys_of_reverse h.filed hs.leads hjoin, rowAt?_putRow]
    simp only [ForeignKey.Points, hvalues]
    split
    · rename_i hsame
      rw [hsame.2, hself hsame.1]
      simp only [Option.some.injEq, exists_eq_left']
      refine exists_congr fun wanted => and_congr_right fun _ => ?_
      rw [Record.hasValues_congr (hheld hsame.1)]
    · exact Iff.rfl
  | association table own other =>
    obtain ⟨j, hj, hkey⟩ := hidentity
    obtain ⟨k, hk, hkey'⟩ := h.filed r.name i.key r record hs.resource h.row
    rw [mem_memberKeys_of_association hfiled hs.leads hjoin hj,
      mem_memberKeys_of_association h.filed hs.leads hjoin hk, hkey, hkey', rowAt?_putRow]
    refine and_congr ?_ Iff.rfl
    split
    · rename_i hsame
      rw [hsame.2, hself hsame.1]
      simp
    · exact Iff.rfl

section Relinked

variable {table own other : String} {j : Identity} {b : Bool}

/-- Links that differ in the link of one pair have the two columns if the others have. -/
theorem paired_of_relinked (h : ∀ link ∈ (t.linksOf table).links, ∃ a b, link = Dict.ofList [(own, a), (other, b)])
    (hlinks : ∀ link, link ∈ (u.linksOf table).links ↔
      if link = Progress.linkOf own other i j then b = true else link ∈ (t.linksOf table).links) :
    ∀ link ∈ (u.linksOf table).links, ∃ a b, link = Dict.ofList [(own, a), (other, b)] := by
  intro link hlink
  rw [hlinks] at hlink
  split at hlink
  · rename_i hnew
    exact ⟨i.key, j.key, hnew⟩
  · exact h link hlink

/-- Links that differ in the link of one pair decide about one member and leave the others. -/
theorem mem_memberKeys_relinked (hfiled : t.Filed s) (hdeclares : s.Declares r rel)
    (hleads : s.target? rel = some target) (hjoin : rel.join = .association table own other)
    (hrow : t.row? r.name i = some record)
    (hpaired : ∀ link ∈ (t.linksOf table).links, ∃ a b, link = Dict.ofList [(own, a), (other, b)])
    (hj : (t.row? target.name j).isSome = true)
    (hrows : ∀ resource key, u.rowAt? resource key = t.rowAt? resource key)
    (hlinks : ∀ link, link ∈ (u.linksOf table).links ↔
      if link = Progress.linkOf own other i j then b = true else link ∈ (t.linksOf table).links)
    (key : String) : key ∈ u.memberKeys s r target record rel ↔
      if key = j.key then b = true else key ∈ t.memberKeys s r target record rel := by
  have hne : own ≠ other := Schema.ne_of_association hdeclares hjoin
  have hfiledAfter : u.Filed s := fun name k r' row hr' hfound => hfiled name k r' row hr' (hrows .. ▸ hfound)
  obtain ⟨i', hi', hkey⟩ := hfiled r.name i.key r record hdeclares.1 hrow
  rw [mem_memberKeys_of_association hfiledAfter hleads hjoin hi',
    mem_memberKeys_of_association hfiled hleads hjoin hi', hkey]
  simp only [hrows]
  split
  · rename_i hsame
    subst hsame
    constructor
    · rintro ⟨-, link, hlink, hown, hother⟩
      obtain ⟨a, c, rfl⟩ := paired_of_relinked hpaired hlinks link hlink
      rw [get?_linkOf_own hne, Option.some.injEq] at hown
      rw [get?_linkOf_other, Option.some.injEq] at hother
      rw [hlinks, if_pos (by rw [hown, hother]; rfl)] at hlink
      exact hlink
    · intro hb
      refine ⟨Option.isSome_iff_exists.1 hj, Progress.linkOf own other i j, ?_, get?_linkOf_own hne,
        get?_linkOf_other⟩
      rw [hlinks, if_pos rfl]
      exact hb
  · rename_i hdiffers
    refine and_congr_right fun _ => exists_congr fun link => ?_
    rw [hlinks]
    split
    · rename_i hnew
      subst hnew
      have hother : (Progress.linkOf own other i j).get? other = some j.key := get?_linkOf_other
      rw [hother, Option.some.injEq]
      exact ⟨fun hl => absurd hl.2.2.symm hdiffers, fun hl => absurd hl.2.2.symm hdiffers⟩
    · exact Iff.rfl

theorem Relates.relinks (h : t.Relates s r rel i record) (hs : s.Collects r target rel)
    (hjoin : rel.join = .association table own other) (hj : (t.row? target.name j).isSome = true)
    (hrows : ∀ resource key, u.rowAt? resource key = t.rowAt? resource key)
    (hlinks : ∀ link, link ∈ (u.linksOf table).links ↔
      if link = Progress.linkOf own other i j then b = true else link ∈ (t.linksOf table).links) :
    u.Relates s r rel i record ∧ ∀ key, key ∈ u.memberKeys s r target record rel ↔
      if key = j.key then b = true else key ∈ t.memberKeys s r target record rel := by
  have hpaired := h.paired table own other hjoin
  have hfiled : u.Filed s := fun name key r' row hr' hrow => h.filed name key r' row hr' (hrows .. ▸ hrow)
  refine ⟨⟨hfiled, (hrows ..).trans h.row, h.referenced, fun table' own' other' hj => ?_⟩, ?_⟩
  · rw [hjoin] at hj
    cases hj
    exact paired_of_relinked hpaired hlinks
  · exact mem_memberKeys_relinked h.filed hs.declares hs.leads hjoin h.row hpaired hj hrows hlinks

end Relinked

end Tables

namespace Progress

variable {s : Schema} {r target : Resource} {rel : Relationship} {i j : Identity} {p q : Progress}
  {member : String → Bool} {record childRow : Record}

/-- The members of a relationship of an entity are those of a set of keys. -/
def Holds (s : Schema) (r target : Resource) (rel : Relationship) (i : Identity) (p : Progress)
    (member : String → Bool) : Prop :=
  ∃ record, p.tables.Relates s r rel i record ∧
    ∀ key, key ∈ p.tables.memberKeys s r target record rel ↔ member key = true

/-- Changes of memberships leave rows in place, with their required columns, and write rows of the target
only. -/
structure Keeps (target : Resource) (p q : Progress) : Prop where
  rows : ∀ key, (p.tables.rowAt? target.name key).isSome = true →
    (q.tables.rowAt? target.name key).isSome = true
  carries : p.tables.Carries target → q.tables.Carries target
  touched : ∀ e ∈ q.touched, e ∈ p.touched ∨ e.1 = target.name

theorem Keeps.refl (p : Progress) : Keeps target p p :=
  ⟨fun _ h => h, fun h => h, fun _ h => .inl h⟩

theorem Keeps.trans {m : Progress} (h : Keeps target p m) (k : Keeps target m q) : Keeps target p q where
  rows key hkey := k.rows key (h.rows key hkey)
  carries hp := k.carries (h.carries hp)
  touched e he := (k.touched e he).elim (h.touched e) .inr

/-- Writing optional columns of one row. -/
theorem keeps_assign (hs : s.Collects r target rel) (values : List Json) :
    Keeps target p (p.assign target.name j rel.join.held values) := by
  have hrow : ∀ key, (p.assign target.name j rel.join.held values).tables.rowAt? target.name key =
      if key = j.key then (p.tables.rowAt? target.name key).map fun record =>
        (record.assign (rel.join.held.zip values)).1
      else p.tables.rowAt? target.name key := fun key => by simp [rowAt?_assign]
  refine ⟨fun key hkey => ?_, fun hp key row hfound f hf hrequired => ?_, fun e he => ?_⟩
  · rw [hrow]
    split
    · rwa [Option.isSome_map]
    · exact hkey
  · rw [hrow] at hfound
    split at hfound
    · obtain ⟨old, hold, rfl⟩ := Option.map_eq_some_iff.1 hfound
      rw [Record.value?_congr]
      · exact hp key old hold f hf hrequired
      · refine old.get?_assign_of_notMem (fun hheld => ?_) _
        rw [hs.optional f hf hheld] at hrequired
        cases hrequired
    · exact hp key row hfound f hf hrequired
  · unfold assign at he
    split at he
    · exact .inl he
    · dsimp only at he
      split at he
      · rcases List.mem_append.1 he with he | he
        · exact .inl he
        · exact .inr (by rw [List.mem_singleton.1 he])
      · exact .inl he

theorem keeps_of_rows_eq (hrows : ∀ resource key, q.tables.rowAt? resource key = p.tables.rowAt? resource key)
    (htouched : q.touched = p.touched) : Keeps target p q := by
  refine ⟨fun key hkey => ?_, fun hp key row hrow => ?_, fun e he => .inl (htouched ▸ he)⟩
  · rwa [hrows]
  · exact hp key row (hrows .. ▸ hrow)

section Association

variable {table own other : String} (hjoin : rel.join = .association table own other)
include hjoin

theorem attach_association (p : Progress) (r target : Resource) (i j : Identity) (record childRow : Record) :
    ∃ q, p.attach r target rel i j record childRow = .ok q ∧
      q.tables = p.tables.putLink table (linkOf own other i j) ∧ q.touched = p.touched := by
  refine ⟨_, by simp only [attach, hjoin]; rfl, ?_, ?_⟩ <;> split <;> rfl

theorem rowAt?_detach_association (p : Progress) (r target : Resource) (i j : Identity) (resource key : String) :
    (p.detach r target rel i j).tables.rowAt? resource key = p.tables.rowAt? resource key := by
  simp only [detach, hjoin]
  split
  · exact Tables.rowAt?_filterLinks ..
  · rfl

theorem mem_linksOf_detach_association (p : Progress) (i j : Identity) (name : String) (link : Link) :
    link ∈ ((p.detach r target rel i j).tables.linksOf name).links ↔
      link ∈ (p.tables.linksOf name).links ∧ (name = table → link ≠ linkOf own other i j) := by
  simp only [detach, hjoin]
  split
  · refine (Tables.mem_linksOf_filterLinks ..).trans ?_
    simp only [decide_eq_true_eq]
  · rename_i habsent
    refine (and_iff_left_of_imp fun hlink => ?_).symm
    rintro rfl rfl
    exact habsent (decide_eq_true hlink)

end Association

/-- A link makes its child a member. -/
theorem Holds.attach (h : p.tables.Relates s r rel i record) (hs : s.Collects r target rel)
    (hmember : ∀ key, key ∈ p.tables.memberKeys s r target record rel ↔ member key = true)
    (hj : p.tables.row? target.name j = some childRow) :
    ∃ q, p.attach r target rel i j record childRow = .ok q ∧
      Holds s r target rel i q (Function.update member j.key true) ∧ Keeps target p q := by
  cases hjoin : rel.join with
  | foreignKey own referenced =>
    have hnotOwn := hs.notOwn
    rw [hjoin] at hnotOwn
    cases hnotOwn
  | reverse own held =>
    have hheld : rel.join.held = held := by rw [hjoin, Join.held]
    obtain ⟨wanted, hwanted⟩ := Option.isSome_iff_exists.1 h.referenced
    have hreferenced : rel.join.referenced = own := by rw [hjoin, Join.referenced]
    rw [hreferenced] at hwanted
    have hkeeps : Keeps target p (p.assign target.name j held wanted) := hheld ▸ keeps_assign hs wanted
    refine ⟨p.assign target.name j held wanted, (attach_held hjoin).2 ⟨wanted, hwanted, rfl⟩, ?_, hkeeps⟩
    obtain ⟨record', hrelates, -, hkeys⟩ := h.rewrites hs hjoin
      (f := fun record => (record.assign (held.zip wanted)).1)
      ⟨p.linksOf_assign _ _ _ _, p.rowAt?_assign target.name j held wanted⟩ fun old c hc =>
        old.get?_assign_of_notMem hc wanted
    refine ⟨record', hrelates, fun key => ?_⟩
    rw [hkeys, rowAt?_assign, Function.update_apply]
    by_cases hkey : key = j.key
    · subst hkey
      have hrow : p.tables.rowAt? target.name j.key = some childRow := hj
      have hnodup : held.Nodup := hheld ▸ hs.once
      have hk : s.HasKey ⟨rel.target, held, r.name, own⟩ := hs.declares.hasKey_held hjoin
      have hlength : held.length = wanted.length :=
        hk.columns.2.trans (Record.length_values? hwanted).symm
      simp only [true_and, if_true, hrow, Option.map_some, Option.some.injEq, exists_eq_left', iff_true]
      exact ⟨wanted, hwanted, Record.hasValues_assign hnodup hlength⟩
    · rw [if_neg fun hsame => hkey hsame.2, if_neg hkey, ← hmember,
        Tables.mem_memberKeys_of_reverse h.filed hs.leads hjoin]
  | association table own other =>
    obtain ⟨q, hattach, htables, htouched⟩ := attach_association hjoin p r target i j record childRow
    have hrows : ∀ resource key, q.tables.rowAt? resource key = p.tables.rowAt? resource key :=
      fun resource key => htables ▸ rfl
    obtain ⟨hrelates, hkeys⟩ := h.relinks hs hjoin (b := true) (Option.isSome_of_eq_some hj) hrows
      fun link => by
        rw [htables, Tables.mem_linksOf_putLink]
        split <;> simp [*]
    refine ⟨q, hattach, ⟨record, hrelates, fun key => ?_⟩, keeps_of_rows_eq hrows htouched⟩
    rw [hkeys, Function.update_apply, hmember]
    split <;> rfl

theorem isMember_eq_true {parentRow : Record} :
    p.isMember s r target rel parentRow j = true ↔
      j.key ∈ p.tables.memberKeys s r target parentRow rel := by
  simp only [Tables.mem_memberKeys, isMember, List.any_eq_true, Option.any_eq_true, decide_eq_true_eq]

/-- An unlink leaves its child no member. -/
theorem Holds.detach (h : p.tables.Relates s r rel i record) (hs : s.Collects r target rel)
    (hmember : ∀ key, key ∈ p.tables.memberKeys s r target record rel ↔ member key = true)
    (hj : (p.tables.row? target.name j).isSome = true) :
    Holds s r target rel i (p.detach r target rel i j) (Function.update member j.key false) ∧
      Keeps target p (p.detach r target rel i j) := by
  cases hjoin : rel.join with
  | foreignKey own referenced =>
    have hnotOwn := hs.notOwn
    rw [hjoin] at hnotOwn
    cases hnotOwn
  | reverse own held =>
    have hheld : rel.join.held = held := by rw [hjoin, Join.held]
    have hk : s.HasKey ⟨rel.target, held, r.name, own⟩ := hs.declares.hasKey_held hjoin
    have hdetach : p.detach r target rel i j = p.clear target.name j held := by
      simp only [Progress.detach, hjoin, if_pos hs.detaches]
    rw [hdetach]
    refine ⟨?_, hheld ▸ keeps_assign hs _⟩
    obtain ⟨record', hrelates, -, hkeys⟩ := h.rewrites hs hjoin (f := (·.cleared held))
      ⟨p.linksOf_clear _ _ _, p.rowAt?_clear target.name j held⟩ fun old c hc => by
        rw [Record.get?_cleared, if_neg hc]
    refine ⟨record', hrelates, fun key => ?_⟩
    rw [hkeys, rowAt?_clear, Function.update_apply]
    by_cases hkey : key = j.key
    · subst hkey
      simp only [true_and, if_true, Option.map_eq_some_iff, Bool.false_eq_true, iff_false]
      rintro ⟨_, ⟨old, -, rfl⟩, hpoints⟩
      exact ForeignKey.not_points_of_null hk (fun c hc => by rw [Record.get?_cleared, if_pos hc]) hpoints
    · rw [if_neg fun hsame => hkey hsame.2, if_neg hkey, ← hmember,
        Tables.mem_memberKeys_of_reverse h.filed hs.leads hjoin]
  | association table own other =>
    have hrows := rowAt?_detach_association hjoin p r target i j
    obtain ⟨hrelates, hkeys⟩ := h.relinks hs hjoin (b := false) hj hrows fun link => by
      rw [mem_linksOf_detach_association hjoin]
      split <;> simp [*]
    refine ⟨⟨record, hrelates, fun key => ?_⟩, keeps_of_rows_eq hrows ?_⟩
    · rw [hkeys, Function.update_apply, hmember]
      split <;> rfl
    · simp only [Progress.detach, hjoin]
      split <;> rfl

/-! ## Changes of a plan -/

/-- The command that makes an entity a member or takes it back. -/
def membershipCommand (r : Resource) (rel : Relationship) (i : Identity) (change : Identity × Bool) :
    Command :=
  let c : LinkChange := ⟨r.name, rel.name, .existing i, .existing change.1⟩
  if change.2 then .link c else .unlink c

/-- A set of keys after one membership is set. -/
def setMember (member : String → Bool) (change : Identity × Bool) : String → Bool :=
  Function.update member change.1.key change.2

theorem Holds.change (h : Holds s r target rel i p member) (hs : s.Collects r target rel)
    (change : Identity × Bool) (hj : (p.tables.row? target.name change.1).isSome = true) :
    ∃ q, p.apply s (membershipCommand r rel i change) = .ok q ∧
      Holds s r target rel i q (setMember member change) ∧ Keeps target p q := by
  obtain ⟨record, hrelates, hmember⟩ := h
  obtain ⟨j, b⟩ := change
  have hends : Ends s p ⟨r.name, rel.name, .existing i, .existing j⟩ r target rel i j :=
    ⟨hs.resource, hs.relationship, hs.leads, rfl, rfl⟩
  cases b with
  | true =>
    obtain ⟨childRow, hchild⟩ := Option.isSome_iff_exists.1 hj
    obtain ⟨q, hattach, hholds⟩ := Holds.attach hrelates hs hmember hchild
    exact ⟨q, (hends.addMember hrelates.row hchild).trans hattach, hholds⟩
  | false =>
    obtain ⟨hholds, hkeeps⟩ := Holds.detach hrelates hs hmember hj
    have hdrop := hends.dropMember hrelates.row
    rw [if_neg (c := rel.cascade = .delete) (by rw [hs.detaches]; exact fun h => by cases h)] at hdrop
    by_cases hmem : p.isMember s r target rel record j = true
    · rw [if_pos hmem] at hdrop
      exact ⟨_, hdrop, hholds, hkeeps⟩
    · rw [if_neg hmem] at hdrop
      refine ⟨p, hdrop, ⟨record, hrelates, fun key => ?_⟩, .refl p⟩
      rw [hmember, setMember, Function.update_apply]
      split
      · rename_i hkey
        rw [isMember_eq_true, hmember, ← hkey] at hmem
        simp [hmem]
      · rfl

/-- An update of the entity that leaves the columns of a relationship alone leaves its members. -/
theorem Holds.update (h : Holds s r target rel i p member) (hs : s.Collects r target rel)
    {values : Record} (hreferenced : ∀ c ∈ rel.join.referenced, values.get? c = none)
    (hheld : target.name = r.name → ∀ c ∈ rel.join.held, values.get? c = none)
    (hok : p.updateRow s r.name (.existing i) values = .ok q) :
    Holds s r target rel i q member ∧ ∀ key, (p.tables.rowAt? target.name key).isSome = true →
      (q.tables.rowAt? target.name key).isSome = true := by
  obtain ⟨record, hrelates, hmember⟩ := h
  obtain ⟨i', old, hi', hrow, rfl | ⟨hkey, rfl⟩⟩ := updateRow_cases hs.resource hok
  · exact ⟨⟨record, hrelates, hmember⟩, fun _ hkey => hkey⟩
  · cases hi'
    cases hrelates.row.symm.trans hrow
    have hunion : ∀ c, values.get? c = none → (record.union values).get? c = record.get? c :=
      fun c hc => by rw [Dict.get?_union, hc, Option.none_or]
    obtain ⟨hput, hkeys⟩ := hrelates.putRow hs (Option.map_eq_some_iff.1 hkey)
      (fun c hc => hunion c (hreferenced c hc)) fun hname c hc => hunion c (hheld hname c hc)
    refine ⟨⟨record.union values, hput, fun key => (hkeys key).trans (hmember key)⟩, fun key hsome => ?_⟩
    change ((p.tables.putRow r.name i.key _).rowAt? target.name key).isSome = true
    rw [Tables.rowAt?_putRow]
    split
    · rfl
    · exact hsome

/-- Changes of memberships are a fold over the set of members. -/
theorem Holds.changes (h : Holds s r target rel i p member) (hs : s.Collects r target rel)
    {changes : List (Identity × Bool)}
    (hrows : ∀ c ∈ changes, (p.tables.row? target.name c.1).isSome = true) :
    ∃ q, (changes.map (membershipCommand r rel i)).foldlM (Progress.apply s) p = .ok q ∧
      Holds s r target rel i q (changes.foldl setMember member) ∧ Keeps target p q := by
  induction changes generalizing p member with
  | nil => exact ⟨p, rfl, h, .refl p⟩
  | cons c rest ih =>
    obtain ⟨m, happly, hholds, hkeeps⟩ := h.change hs c (hrows c List.mem_cons_self)
    obtain ⟨q, hrest, hlast, hkept⟩ := ih hholds fun d hd =>
      hkeeps.rows _ (hrows d (List.mem_cons_of_mem c hd))
    refine ⟨q, ?_, hlast, hkeeps.trans hkept⟩
    rw [List.map_cons, List.foldlM_cons, happly]
    exact hrest

end Progress

end NestedResources
