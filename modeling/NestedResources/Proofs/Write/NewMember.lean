import NestedResources.Proofs.Store.Rewrite
import NestedResources.Proofs.Write.Sole

/-!
# New members

A link does the same to a store whatever else a plan has done: it reads the tables and the keys of the
entities that it refers to, not how the plan refers to them (`Progress.addMember_store`). A link to an
entity that was just created writes into its row or into the row at the other end, and all other rows stay
as they were (`Progress.keepsIdentities_member`).
-/
namespace NestedResources

namespace Progress

variable {s : Schema} {p q other done : Progress} {c d : LinkChange} {r target : Resource}
  {rel : Relationship} {parent child i j : Identity}

/-! ## Links -/

theorem created_assign (p : Progress) (name : String) (i : Identity) (columns : List String)
    (values : List Json) : (p.assign name i columns values).created = p.created := by
  rcases assign_cases p name i columns values with hsame | ⟨record, -, hwrites⟩
  · rw [hsame]
  · rw [hwrites]
    rfl

/-- Columns are written into the row of a key. -/
theorem assign_store (hstore : other.store = p.store) (hkey : j.key = i.key) (name : String)
    (columns : List String) (values : List Json) :
    (other.assign name j columns values).store = (p.assign name i columns values).store := by
  have htables : other.tables = p.tables := congrArg Store.tables hstore
  unfold assign
  rw [Tables.row?, Tables.row?, htables, hkey]
  split
  · exact hstore
  · dsimp only
    split
    · rw [writeRow, writeRow, htables]
      simp only [withTables, hstore]
    · exact hstore

theorem created_attach {parentRow childRow : Record}
    (h : p.attach r target rel parent child parentRow childRow = .ok q) : q.created = p.created := by
  unfold attach at h
  split at h
  · split at h
    · cases h
      exact created_assign ..
    · cases h
  · split at h
    · cases h
      exact created_assign ..
    · cases h
  · cases h
    split <;> rfl

theorem created_addMember (h : p.addMember s c = .ok q) : q.created = p.created := by
  obtain ⟨_, _, _, _, _, _, _, -, -, -, hattach⟩ := addMember_eq_ok h
  exact created_attach hattach

/-- What is attached to what is told by keys. -/
theorem attach_store {parent' child' : Identity} {parentRow childRow : Record}
    (hstore : other.store = p.store) (hparent : parent'.key = parent.key) (hchild : child'.key = child.key)
    (h : p.attach r target rel parent child parentRow childRow = .ok q)
    (hother : other.attach r target rel parent' child' parentRow childRow = .ok done) :
    done.store = q.store := by
  have htables : other.tables = p.tables := congrArg Store.tables hstore
  unfold attach at h hother
  cases hjoin : rel.join with
  | foreignKey own referenced =>
    simp only [hjoin] at h hother
    cases hvalues : childRow.values? referenced with
    | none =>
      rw [hvalues] at h
      cases h
    | some values =>
      rw [hvalues] at h hother
      cases h
      cases hother
      exact assign_store hstore hparent ..
  | reverse own held =>
    simp only [hjoin] at h hother
    cases hvalues : parentRow.values? own with
    | none =>
      rw [hvalues] at h
      cases h
    | some values =>
      rw [hvalues] at h hother
      cases h
      cases hother
      exact assign_store hstore hchild ..
  | association name own referenced =>
    simp only [hjoin] at h hother
    cases h
    cases hother
    rw [linkOf, linkOf, htables, hparent, hchild]
    split <;> simp only [withTables, hstore]

/-- A link does the same for any references to entities with the same keys. -/
theorem addMember_store (h : p.addMember s c = .ok q) (hother : other.addMember s d = .ok done)
    (hstore : other.store = p.store) (hresource : d.resource = c.resource)
    (hrelationship : d.relationship = c.relationship)
    (hparent : p.resolve c.parent = .ok parent ∧ other.resolve d.parent = .ok i ∧ i.key = parent.key)
    (hchild : p.resolve c.child = .ok child ∧ other.resolve d.child = .ok j ∧ j.key = child.key) :
    done.store = q.store := by
  have htables : other.tables = p.tables := congrArg Store.tables hstore
  obtain ⟨r, target, rel, _, _, parentRow, childRow, hends, hparentRow, hchildRow, hattach⟩ :=
    addMember_eq_ok h
  obtain ⟨r', target', rel', _, _, parentRow', childRow', hends', hparentRow', hchildRow', hattach'⟩ :=
    addMember_eq_ok hother
  cases hparent.1.symm.trans hends.parent
  cases hchild.1.symm.trans hends.child
  cases hparent.2.1.symm.trans hends'.parent
  cases hchild.2.1.symm.trans hends'.child
  have hresource' := hends'.resource
  rw [hresource] at hresource'
  cases hends.resource.symm.trans hresource'
  have hrelationship' := hends'.relationship
  rw [hrelationship] at hrelationship'
  cases hends.relationship.symm.trans hrelationship'
  cases hends.target.symm.trans hends'.target
  rw [Tables.row?, htables, hparent.2.2] at hparentRow'
  rw [Tables.row?, htables, hchild.2.2] at hchildRow'
  cases hparentRow.symm.trans hparentRow'
  cases hchildRow.symm.trans hchildRow'
  exact attach_store hstore hparent.2.2 hchild.2.2 hattach hattach'

end Progress

/-! ## Rows that keep their identities -/

namespace Tables

variable {t u v : Tables} {r : Resource}

/-- The rows of a resource are still there, with the same values in its identity columns. -/
def KeepsIdentities (t u : Tables) (r : Resource) : Prop :=
  ∀ key old, t.rowAt? r.name key = some old →
    ∃ new, u.rowAt? r.name key = some new ∧ ∀ c ∈ r.identityColumns, new.get? c = old.get? c

theorem KeepsIdentities.refl (t : Tables) (r : Resource) : t.KeepsIdentities t r :=
  fun _ old hold => ⟨old, hold, fun _ _ => rfl⟩

theorem KeepsIdentities.trans (h : t.KeepsIdentities u r) (k : u.KeepsIdentities v r) :
    t.KeepsIdentities v r := by
  intro key old hold
  obtain ⟨mid, hmid, hfirst⟩ := h key old hold
  obtain ⟨new, hnew, hlast⟩ := k key mid hmid
  exact ⟨new, hnew, fun c hc => (hlast c hc).trans (hfirst c hc)⟩

/-- Rows that end under their own keys, with their identities kept, were under them all along. -/
theorem KeepsIdentities.filedExactly (h : t.KeepsIdentities u r) (hfiled : u.FiledExactly r) :
    t.FiledExactly r := by
  intro key old hold
  obtain ⟨new, hnew, hagree⟩ := h key old hold
  obtain ⟨i, hi, hkey, hexact⟩ := hfiled key new hnew
  exact ⟨i, (r.identityOf?_congr fun c hc => (hagree c hc).symm).trans hi, hkey, hexact⟩

end Tables

/-- A relationship keeps no part of an identity of its owner in a key. -/
def Relationship.SparesOwner (rel : Relationship) (r : Resource) : Prop :=
  ∀ own referenced, rel.join = .foreignKey own referenced → ∀ column ∈ own, column ∉ r.identityColumns

namespace Progress

variable {s : Schema} {p q after : Progress} {c : LinkChange} {r owner target : Resource}
  {rel : Relationship} {values : Record} {slot : Nat}

/-- A creation leaves the rows that are there. -/
theorem rowAt?_createRow {name key : String} {old : Record} {i : Identity}
    (htarget : s.resource? target.name = some target)
    (h : p.createRow s slot target.name values = .ok q) (hcreated : q.created = p.created ++ [i])
    (hold : p.tables.rowAt? name key = some old) :
    q.tables.rowAt? name key = some old ∧ ¬(name = target.name ∧ key = i.key) := by
  obtain ⟨filled, record, j, -, hfilled, -, hfree, rfl⟩ := createRow_eq_ok htarget h
  obtain rfl : i = j := (List.singleton_inj.1 (List.append_cancel_left hcreated)).symm
  have hne : ¬(name = target.name ∧ key = i.key) := by
    rintro ⟨rfl, rfl⟩
    cases hfree.symm.trans hold
  have htables : filled.tables = p.tables := (fillIdentity_eq_ok hfilled).1
  refine ⟨?_, hne⟩
  change (filled.tables.putRow target.name i.key record).rowAt? name key = some old
  rw [Tables.rowAt?_putRow, if_neg hne, htables, hold]

/-- A link leaves the identity of a row that is not the one of its member, unless a key of the owner is a
part of its identity. -/
theorem exists_row_attach {parent child : Identity} {parentRow childRow : Record} {key : String} {old : Record}
    (hr : s.resource? r.name = some r) (howner : s.resource? owner.name = some owner)
    (hspares : rel.SparesOwner owner)
    (hattach : q.attach owner target rel parent child parentRow childRow = .ok after)
    (hrow : q.tables.rowAt? r.name key = some old) (hother : ¬(r.name = target.name ∧ key = child.key)) :
    ∃ new, after.tables.rowAt? r.name key = some new ∧ ∀ c ∈ r.identityColumns, new.get? c = old.get? c := by
  have hstays : ∀ u : Tables, u.rowAt? r.name key = q.tables.rowAt? r.name key →
      ∃ new, u.rowAt? r.name key = some new ∧ ∀ c ∈ r.identityColumns, new.get? c = old.get? c :=
    fun u hu => ⟨old, hu.trans hrow, fun _ _ => rfl⟩
  unfold attach at hattach
  cases hjoin : rel.join with
  | foreignKey own referenced =>
    simp only [hjoin] at hattach
    split at hattach
    · cases hattach
      have hsame := (q.agreesBut_assign owner.name parent own ‹List Json›).sameIdentities (r := r)
        fun hname c hc hown => hspares own referenced hjoin c hown (Schema.eq_of_name hr howner hname ▸ hc)
      exact hsame.exists_row key hrow
    · cases hattach
  | reverse own held =>
    simp only [hjoin] at hattach
    split at hattach
    · cases hattach
      exact hstays _ ((q.agreesBut_assign target.name child held _).others r.name key hother)
    · cases hattach
  | association name own other =>
    simp only [hjoin] at hattach
    cases hattach
    split
    · exact hstays _ (rowAt?_of_rows_eq rfl ..)
    · exact hstays _ (rowAt?_of_rows_eq rfl ..)

/-- An entity that is created and linked leaves the identities of all rows that were there, unless a key
of the owner is a part of its identity. -/
theorem keepsIdentities_member (hr : s.resource? r.name = some r)
    (howner : s.resource? c.resource = some owner) (hrel : owner.relationship? c.relationship = some rel)
    (htarget : s.target? rel = some target)
    (hspares : rel.SparesOwner owner)
    (hcreate : p.createRow s slot target.name values = .ok q) (hchild : c.child = .pending slot)
    (hlink : q.addMember s c = .ok after) : p.tables.KeepsIdentities after.tables r := by
  have hleads := Schema.resource?_of_target? htarget
  obtain ⟨-, hslot, -, i, hcreated, -⟩ := createRow_agrees hleads rfl hcreate hcreate
  obtain ⟨_, _, _, parent, child, parentRow, childRow, hends, -, -, hattach⟩ := addMember_eq_ok hlink
  cases howner.symm.trans hends.resource
  cases hrel.symm.trans hends.relationship
  cases htarget.symm.trans hends.target
  have hresolve := hends.child
  rw [hchild, hslot, resolve_next hcreated] at hresolve
  cases hresolve
  have hresource : s.resource? owner.name = some owner := (Schema.name_of_resource? howner).symm ▸ howner
  intro key old hold
  obtain ⟨hrow, hother⟩ := rowAt?_createRow hleads hcreate hcreated hold
  exact exists_row_attach hr hresource hspares hattach hrow hother

end Progress

end NestedResources
