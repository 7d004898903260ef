import NestedResources.Proofs.Write.Standing

/-!
# Memberships that a link begins

A link makes two rows hold what the membership rests on, or puts a link between their keys. Whatever leaves
this leaves the one entity a member of the other, as long as both rows belong under their keys
(`Posting.Joins.mem_memberKeys`). A row that lost a part of its identity on the way stops the commit.
-/
namespace NestedResources

/-- The columns that a link writes. -/
def Join.written : Join → List String
  | .foreignKey own _ => own
  | .reverse _ held => held
  | .association _ _ _ => []

theorem Join.eq_association_of_table? {join : Join} {table : String} (h : join.table? = some table) :
    ∃ own other, join = .association table own other := by
  cases join with
  | association name own other =>
    cases h
    exact ⟨own, other, rfl⟩
  | _ => cases h

namespace Tables

variable {t : Tables} {s : Schema} {r target : Resource} {rel : Relationship} {record row : Record}

/-- Members by columns are the rows that hold what the columns of the entity have. -/
theorem mem_members_of_columns (htarget : s.target? rel = some target) (hjoin : rel.join.table? = none) :
    row ∈ t.members s r record rel ↔ (∃ key, t.rowAt? target.name key = some row) ∧
      ∃ vs, record.values? rel.join.near = some vs ∧ row.hasValues rel.join.far vs = true := by
  rw [← mem_rowsOf, members, htarget]
  dsimp only
  generalize rel.join = join at hjoin
  cases join with
  | association table own other => cases hjoin
  | foreignKey own far | reverse own far =>
    dsimp only [Join.near, Join.far]
    cases hvs : record.values? own with
    | none => simp
    | some vs => simp [List.mem_filter]

/-- Members by links are the rows under the keys that the links pair with the one of the entity. -/
theorem mem_members_of_association (htarget : s.target? rel = some target) {table own other : String}
    (hjoin : rel.join = .association table own other) {i : Identity} (hi : r.identityOf? record = some i) :
    row ∈ t.members s r record rel ↔ ∃ key, t.rowAt? target.name key = some row ∧
      ∃ link ∈ (t.linksOf table).links, link.get? own = some i.key ∧ link.get? other = some key := by
  simp only [members, htarget, hjoin, hi, List.mem_filterMap, Dict.mem_keys_ofList, List.map_map, List.mem_map,
    List.mem_filter, decide_eq_true_eq, Function.comp_apply]
  constructor
  · rintro ⟨_, ⟨key, ⟨link, ⟨hlink, hown⟩, hother⟩, rfl⟩, hrow⟩
    exact ⟨key, hrow, link, hlink, hown, hother⟩
  · rintro ⟨key, hrow, link, hlink, hown, hother⟩
    exact ⟨key, ⟨key, ⟨link, ⟨hlink, hown⟩, hother⟩, rfl⟩, hrow⟩

end Tables

namespace Posting

variable (m : Posting) (key : String)

/-- The resource whose rows a link writes into, if it writes columns. -/
def keeper : Resource := if m.relationship.join.isForeignKey then m.owner else m.target

/-- A link writes every column once and no part of an identity. If an entity becomes its own member, no column
is written that is referred to. -/
structure LinksCleanly : Prop where
  once : m.relationship.join.written.Nodup
  identity : ∀ column ∈ m.relationship.join.written, column ∉ m.keeper.identityColumns
  itself : m.target.name = m.owner.name → m.key? = some m.ownerKey →
    ∀ column ∈ m.relationship.join.near, column ∉ m.relationship.join.far

instance : Decidable m.LinksCleanly :=
  decidable_of_iff (m.relationship.join.written.Nodup ∧
      (∀ column ∈ m.relationship.join.written, column ∉ m.keeper.identityColumns) ∧
      (m.target.name = m.owner.name → m.key? = some m.ownerKey →
        ∀ column ∈ m.relationship.join.near, column ∉ m.relationship.join.far))
    ⟨fun ⟨once, identity, itself⟩ => ⟨once, identity, itself⟩, fun h => ⟨h.once, h.identity, h.itself⟩⟩

/-- The rows of the two ends hold what makes the entity under a key a member. -/
structure Joins (t : Tables) (record row : Record) : Prop where
  owner : t.rowAt? m.owner.name m.ownerKey = some record
  member : t.rowAt? m.target.name key = some row
  columns : ∃ vs, record.values? m.relationship.join.near = some vs ∧
    row.hasValues m.relationship.join.far vs = true
  links : ∀ table own other, m.relationship.join = .association table own other →
    ∃ link ∈ (t.linksOf table).links, link.get? own = some m.ownerKey ∧ link.get? other = some key

variable {m key} {s : Schema} {t u : Tables} {record row : Record}

/-- What leaves the membership leaves it made. -/
theorem Joins.leaves (h : m.Joins key t record row) (k : m.Leaves key t u) :
    ∃ record' row', m.Joins key u record' row' ∧
      (∀ c ∈ m.owner.identityColumns, record'.get? c = record.get? c) ∧
      ∀ c ∈ m.target.identityColumns, row'.get? c = row.get? c := by
  obtain ⟨record', hrecord, hsame⟩ := k.rows _ _ record h.owner
  obtain ⟨row', hrow, hsameRow⟩ := k.rows _ _ row h.member
  have howner : ∀ c ∈ m.ownerColumns, record'.get? c = record.get? c :=
    fun c hc => hsame c (mem_columnsIn.2 (.inl ⟨⟨rfl, rfl⟩, hc⟩))
  have hmember : ∀ c ∈ m.memberColumns, row'.get? c = row.get? c :=
    fun c hc => hsameRow c (mem_columnsIn.2 (.inr ⟨⟨rfl, rfl⟩, hc⟩))
  refine ⟨record', row', ⟨hrecord, hrow, ?_, fun table own other hjoin => ?_⟩,
    fun c hc => howner c (List.mem_append_left _ hc), fun c hc => hmember c (List.mem_append_left _ hc)⟩
  · obtain ⟨vs, hvs, hholds⟩ := h.columns
    refine ⟨vs, ?_, ?_⟩
    · rw [Record.values?_congr fun c hc => howner c (List.mem_append_right _ hc), hvs]
    · rw [Record.hasValues_congr fun c hc => hmember c (List.mem_append_right _ hc), hholds]
  · obtain ⟨link, hlink, hends⟩ := h.links table own other hjoin
    exact ⟨link, k.links table (by rw [hjoin]; rfl) link hlink, hends⟩

theorem Joins.mem_memberKeys (h : m.Joins key t record row) (htarget : s.target? m.relationship = some m.target)
    (howner : m.owner.FiledAt m.ownerKey record) (hmember : m.target.FiledAt key row) :
    key ∈ t.memberKeys s m.owner m.target record m.relationship := by
  obtain ⟨i, hi, hikey⟩ := howner
  obtain ⟨j, hj, hjkey⟩ := hmember
  refine Tables.mem_memberKeys.2 ⟨row, ?_, j, hj, hjkey⟩
  cases htable : m.relationship.join.table? with
  | none => exact (Tables.mem_members_of_columns htarget htable).2 ⟨⟨key, h.member⟩, h.columns⟩
  | some table =>
    obtain ⟨own, other, hjoin⟩ := Join.eq_association_of_table? htable
    obtain ⟨link, hlink, hown, hother⟩ := h.links table own other hjoin
    exact (Tables.mem_members_of_association htarget hjoin hi).2
      ⟨key, h.member, link, hlink, by rw [hown, hikey], hother⟩

/-- The rows of who is a member make it one. -/
theorem exists_joins_of_mem (htarget : s.target? m.relationship = some m.target)
    (hfiled : ∀ key row, t.rowAt? m.target.name key = some row → m.target.FiledAt key row)
    (howner : t.rowAt? m.owner.name m.ownerKey = some record) (hidentity : m.owner.FiledAt m.ownerKey record)
    (h : key ∈ t.memberKeys s m.owner m.target record m.relationship) :
    ∃ row, m.Joins key t record row := by
  obtain ⟨row, hmember, j, hj, rfl⟩ := Tables.mem_memberKeys.1 h
  have hkey : ∀ filed, t.rowAt? m.target.name filed = some row → filed = j.key := by
    intro filed hrow
    obtain ⟨k, hk, rfl⟩ := hfiled filed row hrow
    rw [Option.some.inj (hk.symm.trans hj)]
  cases htable : m.relationship.join.table? with
  | none =>
    obtain ⟨⟨filed, hrow⟩, hcolumns⟩ := (Tables.mem_members_of_columns htarget htable).1 hmember
    refine ⟨row, howner, hkey filed hrow ▸ hrow, hcolumns, fun table own other hjoin => ?_⟩
    rw [hjoin] at htable
    cases htable
  | some table =>
    obtain ⟨own, other, hjoin⟩ := Join.eq_association_of_table? htable
    obtain ⟨i, hi, hikey⟩ := hidentity
    obtain ⟨filed, hrow, link, hlink, hown, hother⟩ :=
      (Tables.mem_members_of_association htarget hjoin hi).1 hmember
    obtain rfl := hkey filed hrow
    refine ⟨row, howner, hrow, ⟨[], by rw [hjoin]; rfl, by rw [hjoin]; rfl⟩, fun name mine others hsame => ?_⟩
    cases hjoin.symm.trans hsame
    exact ⟨link, hlink, hikey ▸ hown, hother⟩

/-! ## Links -/

/-- A link makes its end a member. -/
theorem exists_joins_of_addMember {p q : Progress} {c : LinkChange} {i j : Identity}
    (hthrough : c.Through s m.owner m.relationship) (htarget : s.target? m.relationship = some m.target)
    (hclean : m.LinksCleanly) (hparent : p.resolve c.parent = .ok i) (hi : i.key = m.ownerKey)
    (hchild : p.resolve c.child = .ok j) (hj : j.key = key)
    (hitself : m.target.name = m.owner.name → key = m.ownerKey → m.key? = some m.ownerKey)
    (h : p.addMember s c = .ok q) : ∃ record row, m.Joins key q.tables record row := by
  obtain ⟨r, target, rel, parent, child, parentRow, childRow, hends, hparentRow, hchildRow, hattach⟩ :=
    Progress.addMember_eq_ok h
  obtain rfl : r = m.owner := Option.some.inj (hends.resource.symm.trans hthrough.resource)
  obtain rfl : rel = m.relationship := Option.some.inj (hends.relationship.symm.trans hthrough.relationship)
  obtain rfl : target = m.target := Option.some.inj (hends.target.symm.trans htarget)
  obtain rfl : parent = i := Except.ok.inj (hends.parent.symm.trans hparent)
  obtain rfl : child = j := Except.ok.inj (hends.child.symm.trans hchild)
  rw [Tables.row?, hi] at hparentRow
  rw [Tables.row?, hj] at hchildRow
  have hapart := fun hname hkey => hclean.itself hname (hitself hname hkey)
  have honce := hclean.once
  cases hjoin : m.relationship.join with
  | foreignKey own referenced =>
    rw [hjoin] at hapart honce
    obtain ⟨vs, hvs, rfl⟩ := (Progress.attach_own hjoin).1 hattach
    obtain ⟨row, hrow, hsame⟩ := (p.agreesBut_assign m.owner.name parent own vs).exists_row hchildRow
    have hkey : s.HasKey ⟨m.owner.name, own, m.relationship.target, referenced⟩ :=
      hthrough.declares.hasKey_own hjoin
    obtain ⟨ws, hws, hwritten⟩ := parentRow.values?_assign honce
      (hkey.columns.2.trans (Record.length_values? hvs).symm) (Record.ne_null_of_values? hvs)
    refine ⟨(parentRow.assign (own.zip vs)).1, row, ?_, hrow, ⟨ws, by rw [hjoin]; exact hws, ?_⟩,
      fun _ _ _ hother => by cases hjoin.symm.trans hother⟩
    · rw [Progress.rowAt?_assign, if_pos ⟨rfl, hi.symm⟩, hparentRow, Option.map_some]
    · rw [hjoin]
      refine (Record.hasValues_same hwritten).trans (Record.hasValues_of_values? ?_)
      rw [← hvs]
      exact Record.values?_congr fun c hc =>
        hsame c fun hname hequal hin => hapart hname (hequal.trans hi) c hin hc
  | reverse own held =>
    rw [hjoin] at hapart honce
    obtain ⟨vs, hvs, rfl⟩ := (Progress.attach_held hjoin).1 hattach
    obtain ⟨record, hrecord, hsame⟩ := (p.agreesBut_assign m.target.name child held vs).exists_row hparentRow
    have hkey : s.HasKey ⟨m.relationship.target, held, m.owner.name, own⟩ :=
      hthrough.declares.hasKey_held hjoin
    refine ⟨record, (childRow.assign (held.zip vs)).1, hrecord, ?_, ⟨vs, ?_, ?_⟩,
      fun _ _ _ hother => by cases hjoin.symm.trans hother⟩
    · rw [Progress.rowAt?_assign, if_pos ⟨rfl, hj.symm⟩, hchildRow, Option.map_some]
    · rw [hjoin, ← hvs]
      exact Record.values?_congr fun c hc =>
        hsame c fun hname hequal hin => hapart hname.symm (hj.symm.trans hequal.symm) c hc hin
    · rw [hjoin]
      exact Record.hasValues_assign honce (hkey.columns.2.trans (Record.length_values? hvs).symm)
  | association table own other =>
    have hne := Schema.ne_of_association hthrough.declares hjoin
    obtain ⟨done, hdone, hq, -⟩ :=
      Progress.attach_association hjoin p m.owner m.target parent child parentRow childRow
    cases hdone.symm.trans hattach
    refine ⟨parentRow, childRow, hq ▸ hparentRow, hq ▸ hchildRow,
      ⟨[], by rw [hjoin]; rfl, by rw [hjoin]; rfl⟩, fun name mine others hsame => ?_⟩
    cases hjoin.symm.trans hsame
    refine ⟨Progress.linkOf own other parent child, ?_, ?_, ?_⟩
    · rw [hq]
      exact (p.tables.mem_linksOf_putLink table _ _).2 (.inl rfl)
    · rw [Progress.linkOf, get?_linkOf_own hne, hi]
    · rw [Progress.linkOf, get?_linkOf_other, hj]

end Posting

/-! ## Rows under their own keys -/

namespace Progress

variable {s : Schema} {r : Resource} {start p q : Progress} {c : Command}

/-- Rows stay under their own keys by an edit that deletes nothing and writes no part of an identity. -/
theorem Edit.filedAt (hedit : Edit s start c p q) (hr : s.resource? r.name = some r)
    (hstays : ∀ name key, ¬c.Deletes s start name key)
    (hapart : ∀ k key, c.Links s start k key ∨ c.Unlinks s start k key → k.holder = r.name →
      ∀ column ∈ k.columns, column ∉ r.identityColumns)
    (h : ∀ key record, p.tables.rowAt? r.name key = some record → r.FiledAt key record) :
    ∀ key record, q.tables.rowAt? r.name key = some record → r.FiledAt key record := by
  have hassign : ∀ (k : ForeignKey) (i : Identity) (values : List Json),
      (k.holder = r.name → ∀ column ∈ k.columns, column ∉ r.identityColumns) →
      ∀ key record, (p.assign k.holder i k.columns values).tables.rowAt? r.name key = some record →
        r.FiledAt key record := by
    intro k i values hcolumns key record hrow
    rw [rowAt?_assign] at hrow
    split at hrow
    · rename_i hsame
      obtain ⟨old, hold, rfl⟩ := Option.map_eq_some_iff.1 hrow
      obtain ⟨j, hj, hkey⟩ := h key old hold
      refine ⟨j, (r.identityOf?_congr fun c hc => ?_).trans hj, hkey⟩
      exact old.get?_assign_of_notMem (fun hin => hcolumns hsame.1.symm c hin hc) values
    · exact h key record hrow
  intro key record hrow
  cases hedit with
  | aside hrows _ =>
    rw [rowAt?_of_rows_eq hrows] at hrow
    exact h key record hrow
  | @write source filed written hsource _ hfiled =>
    change (p.tables.putRow source.name filed written).rowAt? r.name key = some record at hrow
    rw [Tables.rowAt?_putRow] at hrow
    split at hrow
    · rename_i hsame
      obtain rfl : r = source := Schema.eq_of_name hr hsource hsame.1
      cases hrow
      exact hsame.2 ▸ hfiled
    · exact h key record hrow
  | @assign k i values _ hlinks => exact hassign k i values (hapart k i.key (.inl hlinks)) key record hrow
  | @clear k i _ hclears =>
    rcases hclears with hunlinks | ⟨gone, hdeletes, -⟩
    · exact hassign k i _ (hapart k i.key (.inr hunlinks)) key record hrow
    · exact absurd hdeletes (hstays k.owner gone)
  | @drop _ name other hdeletes _ _ => exact absurd hdeletes (hstays name other)

theorem touched_of_run {commands : List Command} (h : commands.foldlM (Progress.apply s) p = .ok q) :
    p.touched ⊆ q.touched :=
  keeps_of_edits (P := fun after => p.touched ⊆ after.touched)
    (fun _ _ _ _ hedit hbefore => List.Subset.trans hbefore hedit.touched) h (List.Subset.refl _)

end Progress

namespace Posting

variable {m : Posting} {child : EntityRef} {key : String} {s : Schema} {r : Resource} {p q : Progress}
  {commands : List Command}

/-- A command that is about the ends of a membership or about the membership itself. -/
def Concerns (m : Posting) (s : Schema) : Command → Prop
  | .create _ _ _ | .update _ _ _ => True
  | .delete _ _ => False
  | .link c => c.Through s m.owner m.relationship
  | .unlink c => c.Through s m.owner m.relationship ∧ m.relationship.isMany = false ∧
      m.relationship.join.isForeignKey = false

theorem LinksCleanly.notMem_identityColumns (h : m.LinksCleanly) (howner : s.resource? m.owner.name = some m.owner)
    (htarget : s.target? m.relationship = some m.target) (hr : s.resource? r.name = some r) {k : ForeignKey}
    (hk : m.relationship.foreignKey? m.owner = some k) (hholder : k.holder = r.name) :
    ∀ column ∈ k.columns, column ∉ r.identityColumns := by
  have hidentity := h.identity
  rw [Relationship.foreignKey?] at hk
  unfold keeper at hidentity
  cases hjoin : m.relationship.join with
  | foreignKey own referenced =>
    rw [hjoin] at hk hidentity
    cases hk
    obtain rfl := Schema.eq_of_name howner hr hholder
    exact hidentity
  | reverse own held =>
    rw [hjoin] at hk hidentity
    cases hk
    obtain rfl := Schema.eq_of_name (Schema.resource?_of_target? htarget) hr
      ((Schema.name_of_resource? htarget).trans hholder)
    exact hidentity
  | association table own other =>
    rw [hjoin] at hk
    cases hk

/-- Commands about a membership leave rows under their own keys, unless they delete whoever is displaced. What
that clears is noticed at the end of the commit. -/
theorem accounted_of_concerns (hclean : m.LinksCleanly) (howner : s.resource? m.owner.name = some m.owner)
    (htarget : s.target? m.relationship = some m.target) (hr : s.resource? r.name = some r)
    (hdeletes : m.relationship.isMany = false → m.relationship.join.isForeignKey = false →
      m.relationship.cascade = .delete → r.RequiresHeld s)
    (hcommands : ∀ c ∈ commands, m.Concerns s c)
    (hfiled : ∀ key record, p.tables.rowAt? r.name key = some record → r.FiledAt key record)
    (hok : commands.foldlM (Progress.apply s) p = .ok q) : Progress.Accounted r q := by
  have hrel : ∀ {change : LinkChange} {owner : Resource} {rel : Relationship},
      change.Through s m.owner m.relationship → change.Through s owner rel →
        owner = m.owner ∧ rel = m.relationship := by
    intro change owner rel hmine hthrough
    obtain rfl : owner = m.owner := Option.some.inj (hthrough.resource.symm.trans hmine.resource)
    exact ⟨rfl, Option.some.inj (hthrough.relationship.symm.trans hmine.relationship)⟩
  by_cases hcascades : m.relationship.isMany = false ∧ m.relationship.join.isForeignKey = false ∧
      m.relationship.cascade = .delete
  · have hstart : Progress.Accounted r p := fun key record hrow => .inl (hfiled key record hrow)
    refine hstart.run hr (hdeletes hcascades.1 hcascades.2.1 hcascades.2.2) (fun change hchange => ?_) hok
    intro owner howns rel hrelates k hk hholder
    obtain ⟨rfl, rfl⟩ := hrel (hcommands _ hchange) ⟨howns, hrelates⟩
    exact hclean.notMem_identityColumns howner htarget hr hk hholder
  · refine fun key record hrow => .inl (Progress.keeps_of_edits
      (P := fun after => ∀ key record, after.tables.rowAt? r.name key = some record → r.FiledAt key record)
      (fun x hx before after hedit hbefore => ?_) hok hfiled key record hrow)
    have hc := hcommands x.2 (Progress.mem_of_mem_stages hx)
    refine hedit.filedAt hr (fun name other hdelete => ?_) (fun k other hkept hholder => ?_) hbefore
    · cases hcommand : x.2 with
      | unlink change =>
        rw [hcommand] at hc hdelete
        obtain ⟨owner, rel, i, hthrough, hcascade, -⟩ := hdelete
        obtain ⟨rfl, rfl⟩ := hrel hc.1 hthrough
        exact hcascades ⟨hc.2.1, hc.2.2, hcascade⟩
      | delete name target =>
        rw [hcommand] at hc
        exact hc
      | _ =>
        rw [hcommand] at hdelete
        exact hdelete
    · cases hcommand : x.2 with
      | link change =>
        rw [hcommand] at hc hkept
        obtain ⟨owner, rel, i, hthrough, hk, -⟩ := hkept.resolve_right id
        obtain ⟨rfl, rfl⟩ := hrel hc hthrough
        exact hclean.notMem_identityColumns howner htarget hr hk hholder
      | unlink change =>
        rw [hcommand] at hc hkept
        obtain ⟨owner, rel, i, hthrough, hk, -⟩ := hkept.resolve_left id
        obtain ⟨rfl, rfl⟩ := hrel hc.1 hthrough
        exact hclean.notMem_identityColumns howner htarget hr hk hholder
      | _ =>
        rw [hcommand] at hkept
        exact (hkept.elim id id).elim

/-- A row that is accounted for and keeps its identity belongs under its key once the commit is accepted. -/
theorem filedAt_of_accounted {between : Progress} (haccount : Progress.Accounted r between)
    (hr : s.resource? r.name = some r) (htouched : between.touched ⊆ q.touched)
    (hfull : q.emptyColumn? s = none) {other : String} {old new : Record}
    (hold : between.tables.rowAt? r.name other = some old) (hnew : q.tables.rowAt? r.name other = some new)
    (hsame : ∀ c ∈ r.identityColumns, new.get? c = old.get? c) : r.FiledAt other new := by
  rcases haccount other old hold with ⟨i, hi, hkey⟩ | ⟨hwritten, f, hf, hoptional, hempty⟩
  · exact ⟨i, (r.identityOf?_congr hsame).trans hi, hkey⟩
  · obtain ⟨id, -, hid⟩ := List.mem_filterMap.1 hf
    have hset := Progress.complete_of_emptyColumn? hfull hr (htouched hwritten) hnew f
      (List.mem_of_find?_eq_some hid) hoptional
    rw [Record.value?_congr (hsame f.column (List.mem_map_of_mem hf)), hempty] at hset
    cases hset

/-- A membership that is made and then spared is there once the commit is accepted. -/
theorem Joins.member_of_run {between : Progress} {record row : Record}
    (h : m.Joins key between.tables record row)
    (howner : s.resource? m.owner.name = some m.owner) (htarget : s.target? m.relationship = some m.target)
    (haccount : ∀ r, r = m.owner ∨ r = m.target → Progress.Accounted r between)
    (hleaves : m.Leaves key between.tables q.tables)
    (hok : commands.foldlM (Progress.apply s) between = .ok q) (hfull : q.emptyColumn? s = none) :
    ∃ new, q.tables.rowAt? m.owner.name m.ownerKey = some new ∧ m.owner.FiledAt m.ownerKey new ∧
      key ∈ q.tables.memberKeys s m.owner m.target new m.relationship := by
  obtain ⟨new, newRow, hjoins, hsame, hsameRow⟩ := h.leaves hleaves
  have htouched := Progress.touched_of_run hok
  have hfiled := filedAt_of_accounted (haccount m.owner (.inl rfl)) howner htouched hfull h.owner hjoins.owner
    hsame
  have hfiledRow := filedAt_of_accounted (haccount m.target (.inr rfl)) (Schema.resource?_of_target? htarget)
    htouched hfull h.member hjoins.member hsameRow
  exact ⟨new, hjoins.owner, hfiled, hjoins.mem_memberKeys htarget hfiled hfiledRow⟩

end Posting

end NestedResources
