import NestedResources.Proofs.Store.Refiled
import NestedResources.Proofs.Write.Hidden
import NestedResources.Proofs.Write.NewMember
import NestedResources.Proofs.Write.Sole
import NestedResources.Proofs.Write.Sparing

/-!
# Memberships that stand

While a plan runs, its references stand for entities by then. The ones that stand for an end of a
membership are those that the plan tells by the key of that end or by its slot, because no creation is given
a key that is taken (`Posting.Stood`). Commands that spare a membership therefore leave what it rests on in
the tables, one after the other, and who was linked before them is a member after them
(`Posting.Joined.mem_memberKeys`).
-/
namespace NestedResources

/-! ## What references stand for -/

/-- Whether a command refers to an entity of a resource by a reference. -/
def Command.Mentions (s : Schema) (name : String) (ref : EntityRef) : Command → Prop
  | .create _ _ _ => False
  | .update resource target _ | .delete resource target => resource = name ∧ target = ref
  | .link c | .unlink c => ∃ owner rel, c.Through s owner rel ∧
      ((owner.name = name ∧ c.parent = ref) ∨ (rel.target = name ∧ c.child = ref))

/-- What a reference is to: a stored entity, or one that commands create. -/
def Tables.Backs (t : Tables) (commands : List Command) (name : String) : EntityRef → Prop
  | .existing i => (t.row? name i).isSome = true
  | .pending slot => ∃ values, .create slot name values ∈ commands

/-- Whether every command refers to stored entities and to those that were created before it. -/
def Tables.Grounds (t : Tables) (s : Schema) (commands : List Command) : Prop :=
  ∀ before c rest, commands = before ++ c :: rest →
    ∀ name ref, c.Mentions s name ref → t.Backs before name ref

namespace WalkSite

variable {site : WalkSite} {commands : List Command} {log : List Consultation}

theorem Knows.backs (hfiled : site.tables.Filed site.registry.schema) {r : Resource}
    (hr : site.registry.schema.resource? r.name = some r) {stored : Option Record} {ref : EntityRef}
    (h : site.Knows commands r stored ref) : site.tables.Backs commands r.name ref := by
  cases ref with
  | pending slot => exact h.2
  | existing i =>
    obtain ⟨record, -, hshows⟩ := h
    obtain ⟨-, row, -, -, hrow, -⟩ := hshows.visible hfiled hr
    exact Option.isSome_of_eq_some hrow

theorem Stands.backs (hfiled : site.tables.Filed site.registry.schema) {p : Parent} {target : Resource}
    {child : Known} (hp : site.Stands commands p)
    (htarget : site.registry.schema.target? p.relationship = some target)
    (hchild : site.Knows commands target child.existing? child.reference) {name : String} {ref : EntityRef}
    (h : (Command.link (linkChange p child.reference)).Mentions site.registry.schema name ref) :
    site.tables.Backs commands name ref := by
  obtain ⟨owner, rel, hthrough, hends⟩ := h
  obtain rfl : owner = p.resource := Option.some.inj (hthrough.resource.symm.trans hp.resource)
  obtain rfl : rel = p.relationship :=
    Option.some.inj (hthrough.relationship.symm.trans hp.relationship)
  rcases hends with ⟨rfl, rfl⟩ | ⟨rfl, rfl⟩
  · exact hp.knows.backs hfiled hp.resource
  · rw [← Schema.name_of_resource? htarget]
    exact hchild.backs hfiled (Schema.resource?_of_target? htarget)

theorem Plans.backs (hfiled : site.tables.Filed site.registry.schema) {c : Command} {qs : List Question}
    (h : site.Plans log commands c qs) {name : String} {ref : EntityRef}
    (hmentions : c.Mentions site.registry.schema name ref) : site.tables.Backs commands name ref := by
  cases h with
  | create => exact hmentions.elim
  | update hr hold hknows hfields =>
    obtain ⟨rfl, rfl⟩ := hmentions
    exact hknows.backs hfiled hr
  | delete hr hknows =>
    obtain ⟨rfl, rfl⟩ := hmentions
    exact hknows.backs hfiled hr
  | link hp htarget hchild hdisplaced => exact hp.backs hfiled htarget hchild hmentions
  | unlink hp htarget hchild => exact hp.backs hfiled htarget hchild hmentions

theorem Authorised.grounds (hfiled : site.tables.Filed site.registry.schema)
    (h : site.Authorised log commands) : site.tables.Grounds site.registry.schema commands := by
  induction h with
  | none => exact fun before c rest hsplit => absurd hsplit.symm (List.append_ne_nil_of_right_ne_nil _ (List.cons_ne_nil _ _))
  | asked _ _ ih => exact ih
  | planned _ hplans _ ih =>
    intro before c rest hsplit name ref hmentions
    rcases List.eq_nil_or_concat rest with rfl | ⟨rest, last, rfl⟩
    · obtain ⟨rfl, hlast⟩ := List.append_inj' hsplit rfl
      cases hlast
      exact hplans.backs hfiled hmentions
    · rw [List.concat_eq_append, ← List.cons_append, ← List.append_assoc] at hsplit
      exact ih before c rest (List.append_inj' hsplit rfl).1 name ref hmentions

end WalkSite

/-! ## What a membership rests on in tables -/

/-- Rows are still there, and columns that were not written have what they had. -/
theorem Tables.AgreesBut.exists_row {t u : Tables} {name key : String} {columns : List String}
    (h : t.AgreesBut name key columns u) {n k : String} {old : Record} (hold : t.rowAt? n k = some old) :
    ∃ new, u.rowAt? n k = some new ∧
      ∀ c, (n = name → k = key → c ∉ columns) → new.get? c = old.get? c := by
  by_cases hrow : n = name ∧ k = key
  · obtain ⟨rfl, rfl⟩ := hrow
    have hagrees := h.row
    rw [hold] at hagrees
    cases hnew : u.rowAt? n k with
    | none =>
      rw [hnew] at hagrees
      cases hagrees
    | some new =>
      rw [hnew] at hagrees
      cases hagrees with
      | some hsame => exact ⟨new, rfl, fun c hc => hsame c (hc rfl rfl)⟩
  · exact ⟨old, (h.others n k hrow).trans hold, fun _ _ => rfl⟩

namespace Posting

variable (m : Posting) (key : String)

/-- The columns that the membership of the entity under a key rests on in the row under another. -/
def columnsIn (resource other : String) : List String :=
  (if resource = m.owner.name ∧ other = m.ownerKey then m.ownerColumns else []) ++
    if resource = m.target.name ∧ other = key then m.memberColumns else []

/-- Rows are still there with what the membership rests on, and so are its links. -/
structure Leaves (t u : Tables) : Prop where
  rows : ∀ name other old, t.rowAt? name other = some old → ∃ new, u.rowAt? name other = some new ∧
    ∀ column ∈ m.columnsIn key name other, new.get? column = old.get? column
  links : ∀ table ∈ m.relationship.join.table?, ∀ link ∈ (t.linksOf table).links,
    link ∈ (u.linksOf table).links

variable {m key} {t u v : Tables}

theorem mem_columnsIn {resource other column : String} : column ∈ m.columnsIn key resource other ↔
    ((resource = m.owner.name ∧ other = m.ownerKey) ∧ column ∈ m.ownerColumns) ∨
      (resource = m.target.name ∧ other = key) ∧ column ∈ m.memberColumns := by
  rw [columnsIn, List.mem_append, List.mem_ite_nil_right, List.mem_ite_nil_right]

theorem Leaves.refl (t : Tables) : m.Leaves key t t :=
  ⟨fun _ _ old hold => ⟨old, hold, fun _ _ => rfl⟩, fun _ _ _ hlink => hlink⟩

theorem Leaves.trans (h : m.Leaves key t u) (k : m.Leaves key u v) : m.Leaves key t v := by
  refine ⟨fun name other old hold => ?_, fun table htable link hlink =>
    k.links table htable link (h.links table htable link hlink)⟩
  obtain ⟨mid, hmid, hfirst⟩ := h.rows name other old hold
  obtain ⟨new, hnew, hlast⟩ := k.rows name other mid hmid
  exact ⟨new, hnew, fun c hc => (hlast c hc).trans (hfirst c hc)⟩

/-- Columns of one row are written that the membership does not rest on. -/
theorem leaves_of_agreesBut {name other : String} {columns : List String}
    (h : t.AgreesBut name other columns u)
    (hspared : ∀ column ∈ columns, column ∉ m.columnsIn key name other) : m.Leaves key t u := by
  refine ⟨fun n k old hold => ?_, fun table _ link hlink => h.links table ▸ hlink⟩
  obtain ⟨new, hnew, hsame⟩ := h.exists_row hold
  refine ⟨new, hnew, fun column hcolumn => hsame column ?_⟩
  rintro rfl rfl hwritten
  exact hspared column hwritten hcolumn

theorem leaves_putRow {name other : String} {new : Record}
    (hsame : ∀ old, t.rowAt? name other = some old →
      ∀ column ∈ m.columnsIn key name other, new.get? column = old.get? column) :
    m.Leaves key t (t.putRow name other new) := by
  refine ⟨fun n k old hold => ?_, fun _ _ _ hlink => hlink⟩
  rw [Tables.rowAt?_putRow]
  split
  · rename_i hrow
    obtain ⟨rfl, rfl⟩ := hrow
    exact ⟨new, rfl, hsame old hold⟩
  · exact ⟨old, hold, fun _ _ => rfl⟩

theorem leaves_putLink (table : String) (added : Link) : m.Leaves key t (t.putLink table added) := by
  refine ⟨fun _ _ old hold => ⟨old, hold, fun _ _ => rfl⟩, fun other _ link hlink => ?_⟩
  by_cases hother : other = table
  · exact hother ▸ (t.mem_linksOf_putLink table added link).2 (.inr (hother ▸ hlink))
  · rw [Tables.linksOf_putLink_of_ne _ hother]
    exact hlink

theorem leaves_filterLinks (table : String) (h : table ∉ m.relationship.join.table?)
    (keep : Link → Bool) : m.Leaves key t (t.filterLinks table keep) := by
  refine ⟨fun name other old hold => ⟨old, ?_, fun _ _ => rfl⟩, fun own hown link hlink => ?_⟩
  · rw [Tables.rowAt?_filterLinks, hold]
  · exact (t.mem_linksOf_filterLinks table keep own link).2 ⟨hlink, fun hsame => absurd (hsame ▸ hown) h⟩

end Posting

/-! ## Commands -/

theorem LinkChange.Through.mentions_keeper {c : LinkChange} {s : Schema} {owner : Resource}
    {rel : Relationship} (h : c.Through s owner rel) {k : ForeignKey} (hk : rel.foreignKey? owner = some k) :
    (Command.link c).Mentions s k.holder (c.keeper rel) := by
  refine ⟨owner, rel, h, ?_⟩
  rw [Relationship.foreignKey?] at hk
  cases hjoin : rel.join with
  | foreignKey own referenced =>
    rw [hjoin] at hk
    cases hk
    exact .inl ⟨rfl, by rw [keeper, hjoin]; rfl⟩
  | reverse own held =>
    rw [hjoin] at hk
    cases hk
    exact .inr ⟨rfl, by rw [keeper, hjoin]; rfl⟩
  | association table own other =>
    rw [hjoin] at hk
    cases hk

namespace Posting

variable {m : Posting} {child : EntityRef} {key : String} {s : Schema} {p q : Progress} {c : Command}

/-- Whether a reference that stands for an end of the membership is told to do so. -/
def Tells (m : Posting) (child : EntityRef) (key : String) (p : Progress) (name : String) (ref : EntityRef) :
    Prop :=
  ∀ i, p.resolve ref = .ok i → ∀ column ∈ m.columnsIn key name i.key, column ∈ m.columnsAt child name ref

/-- What is written for a membership by columns spares another one. -/
theorem SparesKeeper.notMem_columnsIn {change : LinkChange} {owner : Resource} {rel : Relationship}
    (h : m.SparesKeeper child change owner rel) (hthrough : change.Through s owner rel)
    (htells : ∀ name ref, (Command.link change).Mentions s name ref → m.Tells child key p name ref)
    {k : ForeignKey} (hk : rel.foreignKey? owner = some k) {i : Identity}
    (hi : p.resolve (change.keeper rel) = .ok i) :
    ∀ column ∈ k.columns, column ∉ m.columnsIn key k.holder i.key := fun column hcolumn hin =>
  h k hk column hcolumn (htells _ _ (hthrough.mentions_keeper hk) i hi column hin)

/-- A command that spares the membership leaves it. -/
theorem leaves_of_apply (hspares : m.SparesCommand child s c)
    (htells : ∀ name ref, c.Mentions s name ref → m.Tells child key p name ref)
    (h : p.apply s c = .ok q) : m.Leaves key p.tables q.tables := by
  cases c with
  | create slot name values =>
    obtain ⟨r, hr, -⟩ := Except.bind_eq_ok.1 h
    obtain ⟨filled, record, i, -, hfilled, -, hfree, rfl⟩ :=
      Progress.createRow_eq_ok (Schema.require_eq_ok.1 hr) h
    have htables : filled.tables = p.tables := (Progress.fillIdentity_eq_ok hfilled).1
    change m.Leaves key p.tables (filled.tables.putRow r.name i.key record)
    rw [htables]
    exact leaves_putRow fun old hold => by cases hfree.symm.trans hold
  | update name target values =>
    obtain ⟨r, hr, -⟩ := Except.bind_eq_ok.1 h
    replace hr := Schema.require_eq_ok.1 hr
    obtain ⟨i, record, hi, hrow, rfl | ⟨-, rfl⟩⟩ := Progress.updateRow_cases hr h
    · exact .refl _
    · refine leaves_putRow fun old hold column hcolumn => ?_
      cases hrow.symm.trans hold
      rw [Schema.name_of_resource? hr] at hcolumn
      rw [Dict.get?_union, hspares column (htells name target ⟨rfl, rfl⟩ i hi column hcolumn), Option.none_or]
  | delete name target => exact hspares.elim
  | link change =>
    obtain ⟨r, target, rel, parent, member, parentRow, memberRow, hends, -, -, hattach⟩ :=
      Progress.addMember_eq_ok h
    have hthrough : change.Through s r rel := ⟨hends.resource, hends.relationship⟩
    have hkeeper := hspares r rel hthrough
    unfold Progress.attach at hattach
    cases hjoin : rel.join with
    | foreignKey own referenced =>
      simp only [hjoin] at hattach
      split at hattach
      · cases hattach
        exact leaves_of_agreesBut (p.agreesBut_assign r.name parent own _)
          (hkeeper.notMem_columnsIn hthrough htells (k := ⟨r.name, own, rel.target, referenced⟩)
            (by rw [Relationship.foreignKey?, hjoin]) (by rw [LinkChange.keeper, hjoin]; exact hends.parent))
      · cases hattach
    | reverse own held =>
      simp only [hjoin] at hattach
      split at hattach
      · cases hattach
        rw [Schema.name_of_resource? hends.target]
        exact leaves_of_agreesBut (p.agreesBut_assign rel.target member held _)
          (hkeeper.notMem_columnsIn hthrough htells (k := ⟨rel.target, held, r.name, own⟩)
            (by rw [Relationship.foreignKey?, hjoin]) (by rw [LinkChange.keeper, hjoin]; exact hends.child))
      · cases hattach
    | association table own other =>
      simp only [hjoin, Except.ok.injEq] at hattach
      subst hattach
      split <;> exact leaves_putLink table _
  | unlink change =>
    obtain ⟨r, target, rel, parent, member, parentRow, hends, -, hq⟩ := Progress.dropMember_eq_ok h
    have hthrough : change.Through s r rel := ⟨hends.resource, hends.relationship⟩
    obtain ⟨hdetach, hlinks, hkeeper⟩ := hspares r rel hthrough
    rw [if_neg (show ¬ rel.cascade = .delete by simp [hdetach])] at hq
    split at hq
    · subst hq
      unfold Progress.detach
      cases hjoin : rel.join with
      | foreignKey own referenced =>
        exact leaves_of_agreesBut (p.agreesBut_assign r.name parent own _)
          (hkeeper.notMem_columnsIn hthrough htells (k := ⟨r.name, own, rel.target, referenced⟩)
            (by rw [Relationship.foreignKey?, hjoin]) (by rw [LinkChange.keeper, hjoin]; exact hends.parent))
      | reverse own held =>
        dsimp only
        rw [if_pos hdetach, Schema.name_of_resource? hends.target]
        exact leaves_of_agreesBut (p.agreesBut_assign rel.target member held _)
          (hkeeper.notMem_columnsIn hthrough htells (k := ⟨rel.target, held, r.name, own⟩)
            (by rw [Relationship.foreignKey?, hjoin]) (by rw [LinkChange.keeper, hjoin]; exact hends.child))
      | association table own other =>
        dsimp only
        split
        · have hmine : table ∉ m.relationship.join.table? := hlinks table (by rw [hjoin]; exact rfl)
          exact leaves_filterLinks table hmine _
        · exact .refl _
    · exact hq ▸ .refl _

end Posting

namespace Progress

variable {s : Schema} {p q : Progress} {c : Command}

/-! ## Slots -/

namespace Deletion

theorem created_foldl {α : Type} {f : Deletion → α → Deletion}
    (hstep : ∀ d a, (f d a).progress.created = d.progress.created) (items : List α) (d : Deletion) :
    (items.foldl f d).progress.created = d.progress.created := by
  induction items generalizing d with
  | nil => rfl
  | cons a items ih => rw [List.foldl_cons, ih, hstep]

theorem created_clear (d : Deletion) (name : String) (i : Identity) (columns : List String) :
    (d.step (·.clear name i columns)).progress.created = d.progress.created :=
  created_assign ..

theorem created_releaseMembers {remove : Resource → Identity → Deletion → Deletion}
    (hremove : ∀ r i d, (remove r i d).progress.created = d.progress.created) (r : Resource) (record : Record)
    (key : String) (d : Deletion) (rel : Relationship) :
    (releaseMembers s remove r record key d rel).progress.created = d.progress.created := by
  unfold releaseMembers
  split
  · rfl
  · split
    · rfl
    · refine created_foldl (fun d member => ?_) _ d
      split
      · exact hremove ..
      · exact created_clear ..
    · exact (created_foldl (fun d member => hremove ..) _ _).trans rfl

theorem created_releaseReferrers (r : Resource) (record : Record) (key : String) (d : Deletion)
    (e : Resource × Relationship) : (releaseReferrers r record key d e).progress.created = d.progress.created := by
  obtain ⟨source, rel⟩ := e
  unfold releaseReferrers
  dsimp only
  split
  · split
    · rfl
    · exact created_foldl (fun d i => created_clear ..) _ d
  · rfl
  · rfl

theorem created_remove (fuel : Nat) (r : Resource) (i : Identity) (d : Deletion) :
    (remove s fuel r i d).progress.created = d.progress.created := by
  induction fuel generalizing r i d with
  | zero => rfl
  | succ fuel ih =>
    unfold remove
    split
    · rfl
    · dsimp only
      split
      · rfl
      · unfold dropRow step
        dsimp only
        split <;>
          exact (created_foldl (fun _ _ => created_releaseReferrers ..) _ _).trans
            (created_foldl (fun _ _ => created_releaseMembers ih ..) _ _)

end Deletion

theorem created_detach (p : Progress) (r target : Resource) (rel : Relationship) (parent child : Identity) :
    (p.detach r target rel parent child).created = p.created := by
  unfold detach
  split
  · exact created_assign ..
  · split
    · exact created_assign ..
    · rfl
  · dsimp only
    split <;> rfl

/-- Only creations fill slots. -/
theorem created_of_apply (h : p.apply s c = .ok q) (hold : ∀ slot name values, c ≠ .create slot name values) :
    q.created = p.created := by
  cases c with
  | create slot name values => exact absurd rfl (hold slot name values)
  | update name target values =>
    obtain ⟨r, hr, -⟩ := Except.bind_eq_ok.1 h
    obtain ⟨i, record, -, -, rfl | ⟨-, rfl⟩⟩ := updateRow_cases (Schema.require_eq_ok.1 hr) h <;> rfl
  | delete name target =>
    obtain ⟨r, hr, h⟩ := Except.bind_eq_ok.1 h
    obtain ⟨i, hi, h⟩ := Except.bind_eq_ok.1 h
    split at h
    · cases h
    · cases h
      exact Deletion.created_remove ..
  | link change => exact created_addMember h
  | unlink change =>
    obtain ⟨r, target, rel, parent, member, parentRow, -, -, rfl⟩ := dropMember_eq_ok h
    split
    · split
      · exact (Deletion.created_remove ..).trans (created_detach ..)
      · exact created_detach ..
    · rfl

/-- A creation fills the next slot with an entity whose key was free. -/
theorem created_of_create {slot : Nat} {name : String} {values : Record}
    (h : p.apply s (.create slot name values) = .ok q) :
    ∃ i, slot = p.created.length ∧ p.tables.row? name i = none ∧ q.created = p.created ++ [i] := by
  obtain ⟨r, hr, -⟩ := Except.bind_eq_ok.1 h
  replace hr := Schema.require_eq_ok.1 hr
  obtain ⟨filled, record, i, hslot, hfilled, -, hfree, rfl⟩ := createRow_eq_ok hr h
  exact ⟨i, hslot, Schema.name_of_resource? hr ▸ hfree, rfl⟩

end Progress

/-! ## Runs -/

namespace Posting

/-- After some commands of a plan the ends of the membership are in the tables with what it rests on, and no
entity that was created has the key of an end, apart from the posted one. -/
structure Stood (m : Posting) (child : EntityRef) (key : String) (start : Tables) (done : List Command)
    (p : Progress) : Prop where
  leaves : m.Leaves key start p.tables
  owner : (p.tables.rowAt? m.owner.name m.ownerKey).isSome = true
  member : (p.tables.rowAt? m.target.name key).isSome = true
  slots : ∀ slot name values, .create slot name values ∈ done → ∃ i, p.created[slot]? = some i ∧
    (name = m.owner.name → i.key ≠ m.ownerKey) ∧
    (name = m.target.name → i.key = key → (EntityRef.pending slot).tag = child.tag)

variable {m : Posting} {child : EntityRef} {key : String} {s : Schema} {t start : Tables} {p q : Progress}
  {c : Command} {done commands : List Command}

theorem Leaves.isSome_rowAt? {u : Tables} (h : m.Leaves key t u) {name other : String}
    (hrow : (t.rowAt? name other).isSome = true) : (u.rowAt? name other).isSome = true := by
  obtain ⟨old, hold⟩ := Option.isSome_iff_exists.1 hrow
  obtain ⟨new, hnew, -⟩ := h.rows name other old hold
  exact Option.isSome_of_eq_some hnew

/-- The posted entity is new, or stored from the start. -/
def Known (m : Posting) (child : EntityRef) (key : String) (t : Tables) : Prop :=
  ∀ i, (t.row? m.target.name i).isSome = true → i.key = key → child.tag = .inl key

theorem Stood.tells (h : m.Stood child key start done p) (hknown : m.Known child key t) {name : String}
    {ref : EntityRef} (hbacks : t.Backs done name ref) : m.Tells child key p name ref := by
  intro i hi column hcolumn
  rw [mem_columnsIn] at hcolumn
  rw [mem_columnsAt]
  cases ref with
  | existing j =>
    cases hi
    refine hcolumn.imp (And.imp_left fun h => ⟨h.1, congrArg Sum.inl h.2⟩) (And.imp_left fun h => ⟨h.1, ?_⟩)
    rw [hknown i (h.1 ▸ hbacks) h.2, ← h.2]
    rfl
  | pending slot =>
    obtain ⟨values, hcreate⟩ := hbacks
    obtain ⟨j, hslot, howner, hmember⟩ := h.slots slot name values hcreate
    have hij : i = j := by
      rw [Progress.resolve, hslot] at hi
      exact (Except.ok.inj hi).symm
    subst hij
    refine hcolumn.imp (fun h => absurd h.1.2 (howner h.1.1)) (And.imp_left fun h => ⟨h.1, hmember h.1 h.2⟩)

theorem Stood.apply (h : m.Stood child key start done p) (hknown : m.Known child key t)
    (hbacks : ∀ name ref, c.Mentions s name ref → t.Backs done name ref) (hspares : m.SparesCommand child s c)
    (hok : p.apply s c = .ok q) : m.Stood child key start (done ++ [c]) q := by
  have hleaves := leaves_of_apply hspares (fun name ref hmentions => h.tells hknown (hbacks name ref hmentions)) hok
  refine ⟨h.leaves.trans hleaves, hleaves.isSome_rowAt? h.owner, hleaves.isSome_rowAt? h.member,
    fun slot name values hcreate => ?_⟩
  rcases List.mem_append.1 hcreate with hdone | hlast
  · obtain ⟨i, hslot, hapart⟩ := h.slots slot name values hdone
    refine ⟨i, ?_, hapart⟩
    cases c with
    | create next other others =>
      obtain ⟨j, -, -, hcreated⟩ := Progress.created_of_create hok
      rw [hcreated, List.getElem?_append_left (List.getElem?_eq_some_iff.1 hslot).1, hslot]
    | _ => rwa [Progress.created_of_apply hok (by simp)]
  · obtain rfl := List.mem_singleton.1 hlast
    obtain ⟨i, rfl, hfree, hcreated⟩ := Progress.created_of_create hok
    refine ⟨i, by rw [hcreated, List.getElem?_concat_length], fun hname hkey => ?_, fun hname hkey => ?_⟩
    · rw [Tables.row?, hname, hkey] at hfree
      exact absurd h.owner (by simp [hfree])
    · rw [Tables.row?, hname, hkey] at hfree
      exact absurd h.member (by simp [hfree])

/-- Commands that spare the membership leave it, one after the other. -/
theorem Stood.run (h : m.Stood child key start done p) (hknown : m.Known child key t)
    (hgrounds : t.Grounds s (done ++ commands)) (hspares : ∀ c ∈ commands, m.SparesCommand child s c)
    (hok : commands.foldlM (Progress.apply s) p = .ok q) : m.Stood child key start (done ++ commands) q := by
  induction commands generalizing done p with
  | nil =>
    cases hok
    rwa [List.append_nil]
  | cons c commands ih =>
    rw [List.foldlM_cons] at hok
    obtain ⟨between, hfirst, hrest⟩ := Except.bind_eq_ok.1 hok
    have hstood := h.apply hknown (hgrounds done c commands rfl) (hspares c List.mem_cons_self) hfirst
    rw [List.append_cons] at hgrounds ⊢
    exact ih hstood hgrounds (fun c hc => hspares c (List.mem_cons_of_mem _ hc)) hrest

end Posting

end NestedResources
