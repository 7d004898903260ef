import Mathlib.Logic.Relation
import NestedResources.Proofs.Store.Cascade
import NestedResources.Proofs.Store.Fading
import NestedResources.Proofs.Store.Members
import NestedResources.Proofs.Store.Rewrite

/-!
# What a command edits

A command edits one row after the other: it files a row, writes or clears the columns of a foreign key,
or drops a row. What may be edited is told by the command and the tables that it starts from: the
resource that is written, the row that keeps a membership, and the entities that a deletion takes along
with the rows that refer to them (`Progress.edits_of_apply`). What one edit keeps is therefore kept by
every plan.
-/
namespace NestedResources

/-- The row belongs under the key. -/
def Resource.FiledAt (r : Resource) (key : String) (record : Record) : Prop :=
  ∃ i, r.identityOf? record = some i ∧ i.key = key

/-- The row has a value for every required field. -/
def Resource.Complete (r : Resource) (record : Record) : Prop :=
  ∀ f ∈ r.fields, f.optional = false → (record.value? f.column).isSome = true

instance (r : Resource) (record : Record) : Decidable (r.Complete record) :=
  inferInstanceAs (Decidable (∀ _ ∈ _, _))

/-! ## What a command is about -/

namespace LinkChange

/-- The relationship that a change of a membership goes through, with its resource. -/
structure Through (c : LinkChange) (s : Schema) (owner : Resource) (rel : Relationship) : Prop where
  resource : s.resource? c.resource = some owner
  relationship : owner.relationship? c.relationship = some rel

theorem Through.declares {c : LinkChange} {s : Schema} {owner : Resource} {rel : Relationship}
    (h : c.Through s owner rel) : s.Declares owner rel :=
  ⟨Schema.name_of_resource? h.resource ▸ h.resource, List.mem_of_find?_eq_some h.relationship⟩

/-- The end of a membership whose row keeps it, if columns do. -/
def keeper (c : LinkChange) (rel : Relationship) : EntityRef :=
  if rel.join.isForeignKey then c.parent else c.child

/-- Whether a membership is kept in a foreign key, in the row under a key. -/
def KeptAt (c : LinkChange) (s : Schema) (start : Progress) (k : ForeignKey) (key : String) : Prop :=
  ∃ owner rel i, c.Through s owner rel ∧ rel.foreignKey? owner = some k ∧
    start.resolve (c.keeper rel) = .ok i ∧ i.key = key

end LinkChange

namespace Command

/-- Whether rows of a resource are created or updated. -/
def Writes (name : String) : Command → Prop
  | create _ resource _ => resource = name
  | update resource _ _ => resource = name
  | _ => False

/-- Whether a membership begins that is kept in a foreign key. -/
def Links (s : Schema) (start : Progress) (k : ForeignKey) (key : String) : Command → Prop
  | link c => c.KeptAt s start k key
  | _ => False

/-- Whether a membership ends that is kept in a foreign key. -/
def Unlinks (s : Schema) (start : Progress) (k : ForeignKey) (key : String) : Command → Prop
  | unlink c => c.KeptAt s start k key
  | _ => False

/-- Whether an entity is deleted or goes with one that is. -/
def Deletes (s : Schema) (start : Progress) (name key : String) : Command → Prop
  | delete resource target =>
    ∃ i, start.resolve target = .ok i ∧ start.tables.Cascades s resource i.key name key
  | unlink c => ∃ owner rel i, c.Through s owner rel ∧ rel.cascade = .delete ∧
    start.resolve c.child = .ok i ∧ start.tables.Cascades s rel.target i.key name key
  | _ => False

open Progress.Deletion (TakesAlong)

/-- Members go with the entities that they belong to. -/
theorem Deletes.member {s : Schema} {start : Progress} {c : Command} {r target : Resource}
    {rel : Relationship} {key member : String} {record : Record} (h : c.Deletes s start r.name key)
    (htakes : TakesAlong s r target rel) (hrow : start.tables.rowAt? r.name key = some record)
    (hmember : member ∈ start.tables.memberKeys s r target record rel) :
    c.Deletes s start target.name member := by
  have hgoes : ∀ {top gone : String}, start.tables.Cascades s top gone r.name key →
      start.tables.Cascades s top gone target.name member := fun hkey =>
    .member hkey htakes.declares htakes.delete htakes.join htakes.target hrow hmember
  cases c with
  | delete resource t =>
    obtain ⟨i, hi, hkey⟩ := h
    exact ⟨i, hi, hgoes hkey⟩
  | unlink change =>
    obtain ⟨owner, through, i, hthrough, hcascade, hi, hkey⟩ := h
    exact ⟨owner, through, i, hthrough, hcascade, hi, hgoes hkey⟩
  | _ => cases h

end Command

namespace Progress

/-- One edit of a command that starts from `start`. -/
inductive Edit (s : Schema) (start : Progress) (c : Command) (p : Progress) : Progress → Prop
  /-- No row is edited, but links may be. -/
  | aside {q : Progress} (hrows : q.tables.rows = p.tables.rows) (htouched : q.touched = p.touched) :
      Edit s start c p q
  | write {r : Resource} {key : String} {record : Record} (hr : s.resource? r.name = some r)
      (hc : c.Writes r.name) (hfiled : r.FiledAt key record) :
      Edit s start c p (p.writeRow r.name key record)
  | assign {k : ForeignKey} {i : Identity} {values : List Json} (hk : s.HasKey k)
      (hc : c.Links s start k i.key) : Edit s start c p (p.assign k.holder i k.columns values)
  | clear {k : ForeignKey} {i : Identity} (hk : s.HasKey k)
      (hc : c.Unlinks s start k i.key ∨
        ∃ gone, c.Deletes s start k.owner gone ∧ start.tables.Refers s k i.key gone) :
      Edit s start c p (p.clear k.holder i k.columns)
  | drop {q : Progress} {name key : String} (hc : c.Deletes s start name key)
      (htables : q.tables = p.tables.dropRow name key) (htouched : q.touched = p.touched) :
      Edit s start c p q

abbrev Edits (s : Schema) (start : Progress) (c : Command) : Progress → Progress → Prop :=
  Relation.ReflTransGen (Edit s start c)

variable {s : Schema} {start p q : Progress} {c : Command}

theorem rows_filterLinks (t : Tables) (name : String) (keep : Link → Bool) :
    (t.filterLinks name keep).rows = t.rows := by
  unfold Tables.filterLinks
  split <;> rfl

theorem rowAt?_of_rows_eq {t u : Tables} (h : u.rows = t.rows) (name key : String) :
    u.rowAt? name key = t.rowAt? name key := by
  rw [Tables.rowAt?, Tables.table, h, Tables.rowAt?, Tables.table]

/-! ## One edit -/

/-- How an edit writes a row: as a whole, or the columns of a foreign key in it. -/
inductive Puts (s : Schema) (start : Progress) (c : Command) (p : Progress) (name key : String) :
    Record → Prop
  | row {r : Resource} {record : Record} (hr : s.resource? r.name = some r) (hname : r.name = name)
      (hc : c.Writes name) (hfiled : r.FiledAt key record) : Puts s start c p name key record
  | columns {k : ForeignKey} {old : Record} {values : List Json} (hk : s.HasKey k)
      (hholder : k.holder = name) (hold : p.tables.rowAt? name key = some old)
      (hvalues : c.Links s start k key ∨ values = k.columns.map fun _ => .null) :
      Puts s start c p name key (old.assign (k.columns.zip values)).1

theorem row_cases_writeRow {name key other k : String} {record found : Record}
    (h : (p.writeRow other k record).tables.rowAt? name key = some found) :
    p.tables.rowAt? name key = some found ∨
      (name, key) ∈ (p.writeRow other k record).touched ∧ name = other ∧ key = k ∧ found = record := by
  change (p.tables.putRow other k record).rowAt? name key = some found at h
  rw [Tables.rowAt?_putRow] at h
  split at h
  · rename_i hsame
    obtain ⟨rfl, rfl⟩ := hsame
    cases h
    exact .inr ⟨List.mem_append_right _ List.mem_cons_self, rfl, rfl, rfl⟩
  · exact .inl h

/-- Writing columns files the changed row and tells so, or changes nothing. -/
theorem assign_cases (p : Progress) (name : String) (i : Identity) (columns : List String)
    (values : List Json) :
    p.assign name i columns values = p ∨ ∃ record, p.tables.row? name i = some record ∧
      p.assign name i columns values = p.writeRow name i.key (record.assign (columns.zip values)).1 := by
  unfold assign
  cases hrow : p.tables.row? name i with
  | none => exact .inl rfl
  | some record =>
    dsimp only
    split
    · exact .inr ⟨record, rfl, rfl⟩
    · exact .inl rfl

theorem row_cases_assign {k : ForeignKey} {i : Identity} {values : List Json} (hk : s.HasKey k)
    (hvalues : c.Links s start k i.key ∨ values = k.columns.map fun _ => .null) {name key : String}
    {record : Record} (h : (p.assign k.holder i k.columns values).tables.rowAt? name key = some record) :
    p.tables.rowAt? name key = some record ∨
      (name, key) ∈ (p.assign k.holder i k.columns values).touched ∧ Puts s start c p name key record := by
  rcases assign_cases p k.holder i k.columns values with hsame | ⟨old, hold, hwrites⟩
  · rw [hsame] at h
    exact .inl h
  · rw [hwrites] at h ⊢
    refine (row_cases_writeRow h).imp id (.imp id ?_)
    rintro ⟨rfl, rfl, rfl⟩
    exact .columns hk rfl hold hvalues

/-- A row after an edit was there before, or was written and is told of. -/
theorem Edit.row_cases (hedit : Edit s start c p q) {name key : String} {record : Record}
    (h : q.tables.rowAt? name key = some record) :
    p.tables.rowAt? name key = some record ∨ (name, key) ∈ q.touched ∧ Puts s start c p name key record := by
  cases hedit with
  | aside hrows _ => exact .inl ((rowAt?_of_rows_eq hrows name key).symm.trans h)
  | write hr hc hfiled =>
    refine (row_cases_writeRow h).imp id (.imp id ?_)
    rintro ⟨rfl, rfl, rfl⟩
    exact .row hr rfl hc hfiled
  | assign hk hc => exact row_cases_assign hk (.inl hc) h
  | clear hk _ => exact row_cases_assign hk (.inr rfl) h
  | drop _ htables _ =>
    rw [htables, Tables.rowAt?_dropRow] at h
    split at h
    · cases h
    · exact .inl h

theorem touched_assign (p : Progress) (name : String) (i : Identity) (columns : List String)
    (values : List Json) : p.touched ⊆ (p.assign name i columns values).touched := by
  rcases assign_cases p name i columns values with hsame | ⟨record, -, hwrites⟩
  · rw [hsame]
    exact List.Subset.refl _
  · rw [hwrites]
    exact List.subset_append_left _ _

/-- No edit forgets a row that was written. -/
theorem Edit.touched (hedit : Edit s start c p q) : p.touched ⊆ q.touched := by
  cases hedit with
  | aside _ htouched => exact htouched ▸ List.Subset.refl _
  | write => exact List.subset_append_left _ _
  | assign => exact touched_assign ..
  | clear => exact touched_assign ..
  | drop _ _ htouched => exact htouched ▸ List.Subset.refl _

/-! ## Deletions -/

namespace Deletion

/-- A deletion goes on by edits of the command, from tables that have faded since the command started to
tables that have. -/
def Goes (s : Schema) (start : Progress) (c : Command) (d after : Deletion) : Prop :=
  start.tables.Fades d.progress.tables →
    Edits s start c d.progress after.progress ∧ start.tables.Fades after.progress.tables

variable {d after last : Deletion} {source : Resource} {rel : Relationship} {old record : Record}
  {key : String}

theorem Goes.refl (d : Deletion) : Goes s start c d d := fun hd => ⟨.refl, hd⟩

theorem Goes.trans (h : Goes s start c d after) (k : Goes s start c after last) :
    Goes s start c d last := by
  intro hd
  obtain ⟨hfirst, hafter⟩ := h hd
  obtain ⟨hsecond, hlast⟩ := k hafter
  exact ⟨hfirst.trans hsecond, hlast⟩

theorem Goes.of_edit (hedit : Edit s start c d.progress after.progress) (hlater : Later d after) :
    Goes s start c d after := fun hd => ⟨.single hedit, hd.trans hlater.fades⟩

theorem goes_foldl {α : Type} {f : Deletion → α → Deletion} {items : List α}
    (hstep : ∀ a ∈ items, ∀ d : Deletion, Goes s start c d (f d a)) (d : Deletion) :
    Goes s start c d (items.foldl f d) := by
  induction items generalizing d with
  | nil => exact .refl d
  | cons a items ih =>
    exact (hstep a List.mem_cons_self d).trans
      (ih (fun b hb => hstep b (List.mem_cons_of_mem a hb)) (f d a))

theorem goes_dropLinks (table column key : String) (d : Deletion) :
    Goes s start c d (d.step (·.dropLinks table column key)) :=
  .of_edit (.aside (rows_filterLinks ..) rfl) (later_dropLinks d table column key)

theorem goes_dropRow (hc : c.Deletes s start source.name key) (d : Deletion) :
    Goes s start c d (d.dropRow source.name key) := by
  have hedits : Edits s start c d.progress (d.dropRow source.name key).progress := by
    unfold dropRow step
    dsimp only
    split
    · exact .single (.drop hc rfl rfl)
    · exact .refl
  exact fun hd => ⟨hedits, hd.trans (later_dropRow d source.name key).fades⟩

/-- Clearing the foreign keys that refer to an entity which goes. -/
theorem goes_clear {k : ForeignKey} {row : Record} {holder : Resource} {i : Identity} (hk : s.HasKey k)
    (hc : c.Deletes s start k.owner key) (hold : start.tables.rowAt? k.owner key = some old)
    (hfades : old.Fades record) (hd : start.tables.Fades d.progress.tables)
    (hrow : row ∈ d.progress.tables.rowsOf k.holder) (hpoints : k.Points row record)
    (hholder : s.resource? k.holder = some holder) (hi : holder.identityOf? row = some i)
    (before : Deletion) : Goes s start c before (before.step (·.clear k.holder i k.columns)) :=
  .of_edit (.clear hk (.inr ⟨key, hc, hd.refers hold hfades hrow hpoints hholder hi⟩))
    (later_clear before k.holder i k.columns)

theorem goes_releaseReferrers {owner : Resource} (hc : c.Deletes s start owner.name key)
    (hold : start.tables.rowAt? owner.name key = some old) (hfades : old.Fades record)
    (hrel : s.Declares source rel) (htarget : rel.target = owner.name) (d : Deletion) :
    Goes s start c d (releaseReferrers owner record key d (source, rel)) := by
  intro hd
  cases hjoin : rel.join with
  | foreignKey own referenced =>
    have hk : s.HasKey ⟨source.name, own, owner.name, referenced⟩ := htarget ▸ hrel.hasKey_own hjoin
    cases hvalues : record.values? referenced with
    | none =>
      simp only [releaseReferrers, hjoin, hvalues]
      exact ⟨.refl, hd⟩
    | some wanted =>
      simp only [releaseReferrers, hjoin, hvalues]
      refine goes_foldl (fun i hi before => ?_) d hd
      obtain ⟨row, hrow, hidentity⟩ := List.mem_filterMap.1 (List.mem_filter.1 hi).1
      obtain ⟨hmem, hholds⟩ := List.mem_filter.1 hrow
      exact goes_clear hk hc hold hfades hd hmem ⟨wanted, hvalues, hholds⟩ hrel.1 hidentity before
  | association table own other =>
    simp only [releaseReferrers, hjoin]
    exact goes_dropLinks table other key d hd
  | reverse own held =>
    simp only [releaseReferrers, hjoin]
    exact ⟨.refl, hd⟩

theorem goes_releaseMembers {remove : Resource → Identity → Deletion → Deletion}
    (hremove : ∀ target i d, s.resource? target.name = some target →
      c.Deletes s start target.name i.key → Goes s start c d (remove target i d))
    (hc : c.Deletes s start source.name key) (hold : start.tables.rowAt? source.name key = some old)
    (hfades : old.Fades record) (hrel : s.Declares source rel) (d : Deletion) :
    Goes s start c d (releaseMembers s remove source record key d rel) := by
  intro hd
  obtain ⟨target, htarget, hname, hresource⟩ := Schema.exists_target hrel
  -- The members are found in tables that have faded, so they go along by what the tables were.
  have htakes : rel.cascade = .delete → rel.join.isForeignKey = false →
      ∀ i ∈ memberIdentities d s source target record rel, c.Deletes s start target.name i.key :=
    fun hcascade hjoin i hi => hc.member ⟨hrel, hcascade, hjoin, htarget⟩ hold
      (hd.memberKeys hfades (List.mem_map_of_mem hi))
  cases hjoin : rel.join with
  | foreignKey own referenced =>
    simp only [releaseMembers, htarget, hjoin]
    exact ⟨.refl, hd⟩
  | reverse own held =>
    rw [hjoin] at htakes
    have hk : s.HasKey ⟨target.name, held, source.name, own⟩ := hname ▸ hrel.hasKey_held hjoin
    simp only [releaseMembers, htarget, hjoin]
    refine goes_foldl (fun i hi before => ?_) d hd
    cases hcascade : rel.cascade with
    | delete => exact hremove target i before hresource (htakes hcascade rfl i hi)
    | detach =>
      obtain ⟨row, hrow, hidentity⟩ := List.mem_filterMap.1 hi
      simp only [Tables.members, htarget, hjoin] at hrow
      cases hwanted : record.values? own with
      | none =>
        rw [hwanted] at hrow
        cases hrow
      | some wanted =>
        rw [hwanted] at hrow
        obtain ⟨hmem, hholds⟩ := List.mem_filter.1 hrow
        exact goes_clear hk hc hold hfades hd hmem ⟨wanted, hwanted, hholds⟩ hresource hidentity before
  | association table own other =>
    rw [hjoin] at htakes
    simp only [releaseMembers, htarget, hjoin]
    refine (goes_dropLinks table own key d).trans (fun hdropped => ?_) hd
    cases hcascade : rel.cascade with
    | delete =>
      exact goes_foldl (fun i hi before => hremove target i before hresource (htakes hcascade rfl i hi))
        (d.step (·.dropLinks table own key)) hdropped
    | detach => exact ⟨.refl, hdropped⟩

theorem goes_remove (fuel : Nat) (source : Resource) (i : Identity) (d : Deletion)
    (hsource : s.resource? source.name = some source) (hc : c.Deletes s start source.name i.key) :
    Goes s start c d (remove s fuel source i d) := by
  induction fuel generalizing source i d with
  | zero => exact .refl d
  | succ fuel ih =>
    unfold remove
    split
    · exact .refl d
    · dsimp only
      split
      · exact fun hd => ⟨.refl, hd⟩
      · rename_i record hrow
        intro hd
        obtain ⟨old, hold, hfades⟩ := hd.rows source.name i.key record hrow
        have hmembers : ∀ d, Goes s start c d (source.relationships.foldl
            (releaseMembers s (remove s fuel) source record i.key) d) :=
          goes_foldl fun rel hrel d => goes_releaseMembers ih hc hold hfades ⟨hsource, hrel⟩ d
        have hreferrers : ∀ d, Goes s start c d ((s.incoming source.name).foldl
            (releaseReferrers source record i.key) d) :=
          goes_foldl fun x hx d => goes_releaseReferrers hc hold hfades (Schema.mem_incoming.1 hx).1
            (Schema.mem_incoming.1 hx).2 d
        exact (hmembers { d with reached := (source.name, i.key) :: d.reached }).trans
          ((hreferrers _).trans (goes_dropRow hc _)) hd

end Deletion

theorem edits_removeEntity {source : Resource} {i : Identity}
    (hsource : s.resource? source.name = some source) (hc : c.Deletes s start source.name i.key)
    (hfades : start.tables.Fades p.tables) : Edits s start c p (p.removeEntity s source i) :=
  (Deletion.goes_remove _ source i ⟨p, []⟩ hsource hc hfades).1

/-! ## Commands -/

theorem touched_fillIdentity {r : Resource} {fs : List Field} {values record : Record}
    (h : fillIdentity r fs p values = .ok (q, record)) : q.touched = p.touched := by
  induction fs generalizing p values with
  | nil =>
    cases h
    rfl
  | cons f fs ih =>
    unfold fillIdentity at h
    split at h
    · exact ih h
    · split at h
      · cases h
      · split at h
        · exact ih h
        · have hrest := ih h
          exact hrest

theorem edits_createRow {slot : Nat} {resource : String} {values : Record}
    (h : p.createRow s slot resource values = .ok q) :
    Edits s p (.create slot resource values) p q := by
  obtain ⟨r, hr, -⟩ := Except.bind_eq_ok.1 h
  rw [Schema.require_eq_ok] at hr
  obtain ⟨filled, record, i, -, hfilled, hi, -, rfl⟩ := createRow_eq_ok hr h
  obtain ⟨htables, -, -⟩ := fillIdentity_eq_ok hfilled
  have hname := Schema.name_of_resource? hr
  exact .tail (.tail (.single (.aside (congrArg Tables.rows htables) (touched_fillIdentity hfilled)))
    (.write (hname ▸ hr) hname.symm ⟨i, hi, rfl⟩)) (.aside rfl rfl)

theorem edits_updateRow {resource : String} {target : EntityRef} {values : Record}
    (h : p.updateRow s resource target values = .ok q) :
    Edits s p (.update resource target values) p q := by
  obtain ⟨r, hr, -⟩ := Except.bind_eq_ok.1 h
  rw [Schema.require_eq_ok] at hr
  have hname := Schema.name_of_resource? hr
  obtain ⟨i, record, -, -, rfl | ⟨hkey, rfl⟩⟩ := updateRow_cases hr h
  · exact .refl
  · exact .single (.write (hname ▸ hr) hname.symm (Option.map_eq_some_iff.1 hkey))

/-- What a membership by columns is kept in, and where. -/
theorem Ends.keptAt {change : LinkChange} {owner target : Resource} {rel : Relationship}
    {parent child : Identity} (h : Ends s p change owner target rel parent child) :
    (∀ own referenced, rel.join = .foreignKey own referenced →
      change.KeptAt s p ⟨owner.name, own, rel.target, referenced⟩ parent.key) ∧
    ∀ own held, rel.join = .reverse own held →
      change.KeptAt s p ⟨target.name, held, owner.name, own⟩ child.key := by
  have hname : target.name = rel.target := Schema.name_of_resource? h.target
  refine ⟨fun own referenced hjoin => ⟨owner, rel, parent, ⟨h.resource, h.relationship⟩, ?_, ?_, rfl⟩,
    fun own held hjoin => ⟨owner, rel, child, ⟨h.resource, h.relationship⟩, ?_, ?_, rfl⟩⟩
  · rw [Relationship.foreignKey?, hjoin]
  · rw [LinkChange.keeper, hjoin]
    exact h.parent
  · rw [Relationship.foreignKey?, hjoin, hname]
  · rw [LinkChange.keeper, hjoin]
    exact h.child

theorem hasKey_of_keptAt {change : LinkChange} {k : ForeignKey} {key : String}
    (h : change.KeptAt s p k key) : s.HasKey k := by
  obtain ⟨owner, rel, -, hthrough, hkey, -, -⟩ := h
  exact ⟨owner, rel, hthrough.declares, hkey⟩

theorem edits_addMember {change : LinkChange} (h : p.addMember s change = .ok q) :
    Edits s p (.link change) p q := by
  obtain ⟨owner, target, rel, parent, child, parentRow, childRow, hends, -, -, hattach⟩ :=
    addMember_eq_ok h
  obtain ⟨hforeign, hreverse⟩ := hends.keptAt
  unfold attach at hattach
  split at hattach
  · rename_i own referenced hjoin
    have hkept := hforeign own referenced hjoin
    split at hattach
    · cases hattach
      exact .single (.assign (hasKey_of_keptAt hkept) hkept)
    · cases hattach
  · rename_i own held hjoin
    have hkept := hreverse own held hjoin
    split at hattach
    · cases hattach
      exact .single (.assign (hasKey_of_keptAt hkept) hkept)
    · cases hattach
  · cases hattach
    split <;> exact .single (.aside rfl rfl)

/-- Taking a member back is one edit at most, and tables fade by it. -/
theorem edits_detach {change : LinkChange} {owner target : Resource} {rel : Relationship}
    {parent child : Identity} (hends : Ends s p change owner target rel parent child) :
    Edits s p (.unlink change) p (p.detach owner target rel parent child) ∧
      p.tables.Fades (p.detach owner target rel parent child).tables := by
  obtain ⟨hforeign, hreverse⟩ := hends.keptAt
  unfold detach
  split
  · rename_i own referenced hjoin
    have hkept := hforeign own referenced hjoin
    exact ⟨.single (.clear (hasKey_of_keptAt hkept) (.inl hkept)),
      (Deletion.later_clear ⟨p, []⟩ owner.name parent own).fades⟩
  · rename_i own held hjoin
    have hkept := hreverse own held hjoin
    split
    · exact ⟨.single (.clear (hasKey_of_keptAt hkept) (.inl hkept)),
        (Deletion.later_clear ⟨p, []⟩ target.name child held).fades⟩
    · exact ⟨.refl, .refl _⟩
  · split
    · refine ⟨.single (.aside (rows_filterLinks ..) rfl), fun name key new hnew => ?_, fun table link hlink => ?_⟩
      · exact ⟨new, (Tables.rowAt?_filterLinks ..).symm.trans hnew, .refl new⟩
      · exact ((Tables.mem_linksOf_filterLinks ..).1 hlink).1
    · exact ⟨.refl, .refl _⟩

theorem edits_dropMember {change : LinkChange} (h : p.dropMember s change = .ok q) :
    Edits s p (.unlink change) p q := by
  obtain ⟨owner, target, rel, parent, child, parentRow, hends, -, rfl⟩ := dropMember_eq_ok h
  have hname : target.name = rel.target := Schema.name_of_resource? hends.target
  obtain ⟨hdetached, hfades⟩ := edits_detach hends
  split
  · split
    · rename_i hcascade
      have hdeletes : Command.Deletes s p target.name child.key (.unlink change) :=
        ⟨owner, rel, child, ⟨hends.resource, hends.relationship⟩, hcascade, hends.child, hname ▸ .target⟩
      exact hdetached.trans (edits_removeEntity (hname ▸ hends.target) hdeletes hfades)
    · exact hdetached
  · exact .refl

/-- A command is a sequence of its edits. -/
theorem edits_of_apply (h : p.apply s c = .ok q) : Edits s p c p q := by
  cases c with
  | create slot resource values => exact edits_createRow h
  | update resource target values => exact edits_updateRow h
  | delete resource target =>
    obtain ⟨source, i, record, hsource, hi, -, rfl⟩ := delete_eq_ok h
    have hname := Schema.name_of_resource? hsource
    have hdeletes : Command.Deletes s p source.name i.key (.delete resource target) :=
      ⟨i, hi, hname ▸ .target⟩
    exact edits_removeEntity (hname ▸ hsource) hdeletes (.refl _)
  | link change => exact edits_addMember h
  | unlink change => exact edits_dropMember h

/-! ## Plans -/

/-- The commands that are applied, each with what it starts from. -/
def stages (s : Schema) (p : Progress) : List Command → List (Progress × Command)
  | [] => []
  | c :: commands => (p, c) :: match p.apply s c with
    | .ok q => stages s q commands
    | .error _ => []

theorem mem_of_mem_stages {commands : List Command} {x : Progress × Command}
    (h : x ∈ p.stages s commands) : x.2 ∈ commands := by
  induction commands generalizing p with
  | nil => cases h
  | cons c commands ih =>
    rcases List.mem_cons.1 h with rfl | h
    · exact List.mem_cons_self
    · split at h
      · exact List.mem_cons_of_mem c (ih h)
      · cases h

/-- What every edit of every command keeps is kept by the commands of a plan. -/
theorem keeps_of_edits {P : Progress → Prop} {commands : List Command}
    (hedit : ∀ x ∈ p.stages s commands, ∀ before after, Edit s x.1 x.2 before after → P before → P after)
    (h : commands.foldlM (Progress.apply s) p = .ok q) (hp : P p) : P q := by
  induction commands generalizing p with
  | nil =>
    cases h
    exact hp
  | cons c commands ih =>
    rw [List.foldlM_cons] at h
    obtain ⟨next, hnext, h⟩ := Except.bind_eq_ok.1 h
    have hstages : p.stages s (c :: commands) = (p, c) :: next.stages s commands := by
      rw [stages, hnext]
    rw [hstages] at hedit
    have hfirst := hedit (p, c) List.mem_cons_self
    refine ih (fun x hx => hedit x (List.mem_cons_of_mem _ hx)) h ?_
    have hedits := edits_of_apply hnext
    clear hedit hnext h hstages
    induction hedits with
    | refl => exact hp
    | tail _ hlast ihedits => exact hfirst _ _ hlast ihedits

theorem emptyColumn?_eq_some {fault : ConflictFault} (h : p.emptyColumn? s = some fault) :
    ∃ name key field, fault = .columnEmpty name key field := by
  obtain ⟨e, -, hfault⟩ := List.exists_of_findSome?_eq_some h
  obtain ⟨record, -, hfault⟩ := Option.bind_eq_some_iff.1 hfault
  obtain ⟨r, -, hfault⟩ := Option.bind_eq_some_iff.1 hfault
  obtain ⟨field, -, hfault⟩ := Option.bind_eq_some_iff.1 hfault
  cases hfault
  exact ⟨_, _, _, rfl⟩

/-- The check at the end of a plan finds what is missing in any row that was written. -/
theorem complete_of_emptyColumn? (hnone : p.emptyColumn? s = none) {r : Resource}
    (hr : s.resource? r.name = some r) {key : String} (htouched : (r.name, key) ∈ p.touched)
    {record : Record} (hrow : p.tables.rowAt? r.name key = some record) : r.Complete record := by
  intro f hf hoptional
  by_contra hempty
  have hstops := List.findSome?_eq_none_iff.1 hnone (r.name, key) htouched
  have hmissing : (r.fields.find? fun g : Field =>
      !g.optional && (record.value? g.column).isNone).isSome = true :=
    List.find?_isSome.2 ⟨f, hf, by simpa [hoptional] using hempty⟩
  obtain ⟨g, hg⟩ := Option.isSome_iff_exists.1 hmissing
  simp only [hrow, hr, hg, Option.bind_eq_bind, Option.bind_some] at hstops
  cases hstops

end Progress

end NestedResources
