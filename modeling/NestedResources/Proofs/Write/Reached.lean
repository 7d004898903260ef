import NestedResources.Proofs.Write.Posted

/-!
# Plans that reach a membership

A plan for a posted object runs in two parts. Once the first one has run, the two rows make the entity of
the object a member, and no other entity that was created goes by their keys (`Posting.Reaches.made`). The
second part leaves the membership as it is, so that it is there when the plan is committed
(`Posting.Posts.member_of_run`).
-/
namespace NestedResources

namespace Progress

variable {s : Schema} {p q : Progress} {c : Command} {commands : List Command}

/-- Slots that are filled stay so. -/
theorem created_prefix_of_run (h : commands.foldlM (Progress.apply s) p = .ok q) : p.created <+: q.created := by
  induction commands generalizing p with
  | nil =>
    cases h
    exact List.prefix_refl _
  | cons c commands ih =>
    rw [List.foldlM_cons] at h
    obtain ⟨between, hfirst, hrest⟩ := Except.bind_eq_ok.1 h
    refine List.IsPrefix.trans ?_ (ih hrest)
    cases c with
    | create slot name values =>
      obtain ⟨i, -, -, hcreated⟩ := created_of_create hfirst
      exact hcreated ▸ List.prefix_append _ _
    | _ => rw [created_of_apply hfirst (by simp)]

end Progress

namespace Posting

variable {m : Posting} {s : Schema} {t : Tables} {store : Store} {child : EntityRef} {key : String}
  {p q : Progress} {parent : Parent} {record : Record} {members : List (String × Json)}
  {c : Command} {opening reached rest : List Command}

/-- The owner of a relationship in tables whose rows belong under their keys. -/
structure Stored (m : Posting) (s : Schema) (t : Tables) (i : Identity) (record : Record) : Prop where
  resource : s.resource? m.owner.name = some m.owner
  relationship : m.owner.relationship? m.relationship.name = some m.relationship
  leads : s.target? m.relationship = some m.target
  filed : t.Filed s
  key : i.key = m.ownerKey
  row : t.rowAt? m.owner.name m.ownerKey = some record

theorem Stored.filedAt {i : Identity} (h : m.Stored s t i record) {r : Resource}
    (hr : s.resource? r.name = some r) :
    ∀ key row, t.rowAt? r.name key = some row → r.FiledAt key row :=
  fun key row hrow => h.filed r.name key r row hr hrow

/-! ## The first part -/

/-- The entity of an object, as a plan refers to it and as it is stored after a part of the plan. -/
inductive Entity (m : Posting) (t : Tables) : EntityRef → String → Progress → Prop
  | stored {j : Identity} {p : Progress} (hkey : m.key? = some j.key) : Entity m t (.existing j) j.key p
  | new {j : Identity} {p : Progress} (hfree : t.row? m.target.name j = none) (hslot : p.created[0]? = some j)
      (hkey : ∀ key ∈ m.key?, key = j.key) : Entity m t (.pending 0) j.key p

theorem Entity.later (h : m.Entity t child key p) (hcreated : p.created <+: q.created) :
    m.Entity t child key q := by
  cases h with
  | stored hkey => exact .stored hkey
  | new hfree hslot hkey =>
    refine .new hfree ?_ hkey
    obtain ⟨more, hmore⟩ := hcreated
    rw [← hmore, List.getElem?_append_left (List.getElem?_eq_some_iff.1 hslot).1, hslot]

/-- The reference to the entity stands for one that has its key. -/
theorem Entity.resolve (h : m.Entity t child key p) : ∃ j, p.resolve child = .ok j ∧ j.key = key := by
  cases h with
  | stored hkey => exact ⟨_, rfl, rfl⟩
  | new hfree hslot hkey =>
    refine ⟨_, ?_, rfl⟩
    rw [Progress.resolve, hslot]

/-- If the entity is the owner, then it is stored and goes by its key. -/
theorem Entity.itself (h : m.Entity t child key p) (hrow : t.rowAt? m.owner.name m.ownerKey = some record)
    (hname : m.target.name = m.owner.name) (hkey : key = m.ownerKey) : m.key? = some m.ownerKey := by
  cases h with
  | stored hnamed => exact hnamed.trans (congrArg some hkey)
  | new hfree hslot _ =>
    rw [Tables.row?, hname, hkey, hrow] at hfree
    cases hfree

theorem Entity.known (h : m.Entity t child key p) : m.Known child key t := by
  intro i hi hkey
  cases h with
  | stored _ => rfl
  | new hfree hslot _ =>
    rw [Tables.row?, hkey] at hi
    rw [Tables.row?] at hfree
    rw [hfree] at hi
    cases hi

/-- What is planned for the entity of an object gives it a row. A new one has the key that the object names, if it
names one. -/
theorem Opens.entity (hopens : m.Opens store.tables members child opening)
    (htarget : s.resource? m.target.name = some m.target) (hnames : m.target.NamesExactly)
    (hnodup : (members.map (·.1)).Nodup) (hnamed : m.key? = (m.target.identityIn? members).map Identity.key)
    (hok : opening.foldlM (Progress.apply s) ({ store } : Progress) = .ok p) :
    ∃ key, m.Entity store.tables child key p := by
  cases hopens with
  | stored hstores hkey hupdates => exact ⟨_, .stored hkey⟩
  | @new values hvalues =>
    obtain ⟨q, hcreate, hdone⟩ := Except.bind_eq_ok.1 hok
    cases hdone
    obtain ⟨j, -, hfree, hcreated⟩ := Progress.created_of_create hcreate
    refine ⟨j.key, .new hfree (by rw [hcreated]; rfl) fun key hkey => ?_⟩
    rw [hnamed] at hkey
    obtain ⟨i, hi, rfl⟩ := Option.map_eq_some_iff.1 hkey
    obtain ⟨-, -, rfl⟩ := Progress.createRow_named htarget (hnames.identityOf?_values hnodup hvalues hi) hcreate
    cases hcreated
    rfl

/-- A membership that is there once a part of a plan has run. -/
structure Made (m : Posting) (s : Schema) (t : Tables) (child : EntityRef) (key : String) (done : List Command)
    (p : Progress) : Prop where
  joins : ∃ record row, m.Joins key p.tables record row
  entity : m.Entity t child key p
  slots : ∀ slot name values, .create slot name values ∈ done → child = .pending slot ∧ name = m.target.name
  accounted : ∀ r, s.resource? r.name = some r → r = m.owner ∨ r = m.target → Progress.Accounted r p

theorem Opens.eq_of_mem (hopens : m.Opens t members child opening) (hc : c ∈ opening) :
    (∃ values, child = .pending 0 ∧ c = .create 0 m.target.name values) ∨
      ∃ j values, c = .update m.target.name (.existing j) values := by
  cases hopens with
  | new _ => exact .inl ⟨_, rfl, List.mem_singleton.1 hc⟩
  | stored _ _ hupdates =>
    obtain ⟨values, rfl⟩ := hupdates c hc
    exact .inr ⟨_, values, rfl⟩

/-- Only the entity of the object is created on the way. -/
theorem Reaches.eq_of_create (hreaches : m.Reaches s t parent record members child reached) {slot : Nat}
    {name : String} {values : Record} (hc : .create slot name values ∈ reached) :
    child = .pending slot ∧ name = m.target.name := by
  cases hreaches with
  | member _ _ _ => cases hc
  | linked hopens _ =>
    rcases List.mem_append.1 hc with hc | hc
    · rcases List.mem_append.1 hc with hc | hc
      · rcases hopens.eq_of_mem hc with ⟨_, rfl, hcreate⟩ | ⟨_, _, hupdate⟩
        · cases hcreate
          exact ⟨rfl, rfl⟩
        · cases hupdate
      · obtain ⟨x, -, hx⟩ := List.mem_map.1 hc
        cases hx
    · cases List.mem_singleton.1 hc

theorem Reaches.concerns (hthrough : ∀ x, (WalkSite.linkChange parent x).Through s m.owner m.relationship)
    (hreaches : m.Reaches s t parent record members child reached) : ∀ c ∈ reached, m.Concerns s c := by
  intro c hc
  cases hreaches with
  | member _ _ _ => cases hc
  | linked hopens hdisplaced =>
    rcases List.mem_append.1 hc with hc | hc
    · rcases List.mem_append.1 hc with hc | hc
      · rcases hopens.eq_of_mem hc with ⟨_, -, rfl⟩ | ⟨_, _, rfl⟩ <;> trivial
      · obtain ⟨x, hx, rfl⟩ := List.mem_map.1 hc
        exact ⟨hthrough x, hdisplaced (List.ne_nil_of_mem hx)⟩
    · cases List.mem_singleton.1 hc
      exact hthrough _

/-- What is planned until the entity of an object is a member makes it one. -/
theorem Reaches.made {i : Identity} (h : m.Stored s store.tables i record)
    (hupholds : m.Upholds s store.tables record members) (hnames : m.target.NamesExactly)
    (hnamed : m.key? = (m.target.identityIn? members).map Identity.key)
    (hreaches : m.Reaches s store.tables (WalkSite.topParent m.owner m.relationship i record) record members child
      reached)
    (hok : reached.foldlM (Progress.apply s) ({ store } : Progress) = .ok p) :
    ∃ key, m.Made s store.tables child key reached p := by
  have htarget := Schema.resource?_of_target? h.leads
  have hthrough : ∀ x, (WalkSite.linkChange (WalkSite.topParent m.owner m.relationship i record) x).Through s
      m.owner m.relationship := fun _ => ⟨h.resource, h.relationship⟩
  have haccounted : ∀ r, s.resource? r.name = some r → r = m.owner ∨ r = m.target →
      Progress.Accounted r p := fun r hr hend =>
    accounted_of_concerns (p := { store }) hupholds.links h.resource h.leads hr
      (fun hone howned hcascade => by
        obtain ⟨howner, hmember⟩ := hupholds.requires hone howned hcascade
        exact hend.elim (fun hr => hr ▸ howner) fun hr => hr ▸ hmember)
      (hreaches.concerns hthrough) (h.filedAt hr) hok
  have hcreates : ∀ slot name values, .create slot name values ∈ reached →
      child = .pending slot ∧ name = m.target.name := fun _ _ _ hc => hreaches.eq_of_create hc
  cases hreaches with
  | member hstores hkey hmember =>
    cases hok
    obtain ⟨row, hjoins⟩ := exists_joins_of_mem h.leads (h.filedAt htarget) h.row
      (h.filedAt h.resource _ _ h.row) hmember
    exact ⟨_, ⟨record, row, hjoins⟩, .stored hkey, hcreates, haccounted⟩
  | linked hopens hdisplaced =>
    rw [List.foldlM_append] at hok
    obtain ⟨vacated, hfirst, hlink⟩ := Except.bind_eq_ok.1 hok
    rw [List.foldlM_append] at hfirst
    obtain ⟨opened, hopening, hvacate⟩ := Except.bind_eq_ok.1 hfirst
    obtain ⟨key, hopened⟩ := hopens.entity htarget hnames hupholds.nodup hnamed hopening
    have hentity := hopened.later (Progress.created_prefix_of_run hvacate)
    obtain ⟨j, hresolve, hj⟩ := hentity.resolve
    have hlater := hentity.later (Progress.created_prefix_of_run hlink)
    obtain ⟨linked, hadd, hdone⟩ := Except.bind_eq_ok.1 hlink
    cases hdone
    exact ⟨key, exists_joins_of_addMember (p := vacated) (hthrough child) h.leads hupholds.links rfl h.key hresolve hj
      (hentity.itself h.row) hadd, hlater, hcreates, haccounted⟩

/-! ## The second part -/

/-- What spares the membership leaves it until the plan is committed. -/
theorem Made.member_of_run {i : Identity} (hmade : m.Made s store.tables child key reached p)
    (h : m.Stored s store.tables i record) (hgrounds : store.tables.Grounds s (reached ++ rest))
    (hspares : ∀ c ∈ rest, m.SparesCommand child s c)
    (hok : rest.foldlM (Progress.apply s) p = .ok q) (hfull : q.emptyColumn? s = none) :
    ∃ new, q.tables.rowAt? m.owner.name m.ownerKey = some new ∧ m.owner.FiledAt m.ownerKey new ∧
      key ∈ q.tables.memberKeys s m.owner m.target new m.relationship := by
  obtain ⟨old, row, hjoins⟩ := hmade.joins
  have hstood : m.Stood child key p.tables reached p := by
    refine ⟨.refl _, Option.isSome_of_eq_some hjoins.owner, Option.isSome_of_eq_some hjoins.member,
      fun slot name values hcreate => ?_⟩
    obtain ⟨rfl, rfl⟩ := hmade.slots slot name values hcreate
    cases hmade.entity with
    | @new j _ hfree hslot _ =>
      refine ⟨j, hslot, fun hname hkey => ?_, fun _ _ => rfl⟩
      rw [Tables.row?, hname, hkey, h.row] at hfree
      cases hfree
  exact hjoins.member_of_run h.resource h.leads
    (fun r hend => hmade.accounted r (by
      rcases hend with rfl | rfl
      · exact h.resource
      · exact Schema.resource?_of_target? h.leads) hend)
    (hstood.run hmade.entity.known hgrounds hspares hok).leaves hok hfull

/-- How a plan tells the entity of an object: by the key that the object names, or as the first one that it
creates. -/
def Told (m : Posting) (commands : List Command) (key : String) (p : Progress) : Prop :=
  m.key? = some key ∨ m.key? = none ∧ ∃ j values more, j.key = key ∧ p.created[0]? = some j ∧
    commands = .create 0 m.target.name values :: more

theorem Reaches.told (hreaches : m.Reaches s t parent record members child reached)
    (hentity : m.Entity t child key p) (rest : List Command) : m.Told (reached ++ rest) key p := by
  cases hentity with
  | stored hkey => exact .inl hkey
  | @new j _ _ hslot hkey =>
    cases hnamed : m.key? with
    | some named => exact .inl (hnamed.trans (congrArg some (hkey named hnamed)))
    | none =>
      cases hreaches with
      | linked hopens _ =>
        cases hopens with
        | new _ => exact .inr ⟨hnamed, j, _, _, rfl, hslot, rfl⟩

/-- Once a plan for a posted object is committed, the entity of the object is a member. -/
theorem Posts.member_of_run {i : Identity} {commands : List Command} (h : m.Stored s store.tables i record)
    (hupholds : m.Upholds s store.tables record members) (hnames : m.target.NamesExactly)
    (hnamed : m.key? = (m.target.identityIn? members).map Identity.key)
    (hposts : m.Posts s store.tables (WalkSite.topParent m.owner m.relationship i record) record members commands)
    (hgrounds : store.tables.Grounds s commands)
    (hok : commands.foldlM (Progress.apply s) ({ store } : Progress) = .ok q) (hfull : q.emptyColumn? s = none) :
    ∃ key new, m.Told commands key q ∧ q.tables.rowAt? m.owner.name m.ownerKey = some new ∧
      m.owner.FiledAt m.ownerKey new ∧ key ∈ q.tables.memberKeys s m.owner m.target new m.relationship := by
  obtain ⟨child, reached, rest, rfl, hreaches, hspares⟩ := hposts
  rw [List.foldlM_append] at hok
  obtain ⟨p, hfirst, hrest⟩ := Except.bind_eq_ok.1 hok
  obtain ⟨key, hmade⟩ := hreaches.made h hupholds hnames hnamed hfirst
  obtain ⟨new, hnew, hfiled, hmember⟩ := hmade.member_of_run h hgrounds hspares hrest hfull
  have hentity := hmade.entity.later (Progress.created_prefix_of_run hrest)
  exact ⟨key, new, hreaches.told hentity rest, hnew, hfiled, hmember⟩

end Posting

end NestedResources
