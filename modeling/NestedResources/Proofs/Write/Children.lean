import Mathlib
import NestedResources.Proofs.Write.Creation
import NestedResources.Proofs.Write.Single

/-!
# Documents with children

The items of the relationships to many at the top of a document are its children. If all of them are new
and nothing is wrong, a walk plans two commands for each of them, one after the other: a creation and a
link to the entity at the top (`WalkSite.bears_of_visitRelationships`). It does so whether that entity is
itself created (`WriteOp.create_births`) or is stored (`WriteOp.update_birth`).
-/
namespace NestedResources

/-! ## Children -/

/-- An item of a relationship of a document. -/
structure Child where
  relationship : Relationship
  target : Resource
  document : Json

namespace Child

/-- The members of the document of a child. -/
def members (c : Child) : List (String × Json) :=
  match c.document with
  | .obj members => members
  | _ => []

/-- The resource and the key of the entity that the document of a child names. -/
def name? (c : Child) : Option (String × String) :=
  (c.target.identityIn? c.members).map fun i => (c.target.name, i.key)

/-- What is named by the documents of children. -/
def names (children : List Child) : List (String × String) := children.flatMap fun c => c.name?.toList

/-- What is written for a new child. -/
def Writes (c : Child) (values : Record) : Prop := c.target.values? none c.members = some values

/-- A child with a document of scalars that names no stored entity. -/
structure IsNew (c : Child) (t : Tables) : Prop where
  names : c.target.NamesExactly
  filed : t.FiledExactly c.target
  scalars : c.target.WritesScalars c.members
  free : ∀ i, c.target.identityIn? c.members = some i → t.row? c.target.name i = none

end Child

namespace Resource

/-- The items of a member of a document that is walked over. -/
def childrenAt (r : Resource) (s : Schema) (m : String × Json) : List Child :=
  match (r.walked? m.1).bind fun rel => (s.target? rel).map (rel, ·), m.2 with
  | some (rel, target), .arr items => items.map (Child.mk rel target)
  | _, _ => []

/-- The children of a document, member by member and item by item. -/
def children (r : Resource) (s : Schema) (members : List (String × Json)) : List Child :=
  members.flatMap (r.childrenAt s)

/-- A document without the relationships that are walked over. -/
def scalars (r : Resource) (members : List (String × Json)) : List (String × Json) :=
  members.filter fun m => (r.walked? m.1).isNone

variable {r : Resource} {s : Schema} {members : List (String × Json)} {rel : Relationship}
  {target : Resource} {key : String}

theorem childrenAt_items (hrel : r.walked? key = some rel) (htarget : s.target? rel = some target)
    (items : List Json) : r.childrenAt s (key, .arr items) = items.map (Child.mk rel target) := by
  rw [childrenAt, hrel, Option.bind_some, htarget]
  rfl

theorem childrenAt_of_not_walked (h : r.walked? key = none) (raw : Json) : r.childrenAt s (key, raw) = [] := by
  rw [childrenAt, h]
  rfl

/-- A child hangs off a relationship that is walked over and leads to its resource. -/
theorem of_mem_children {c : Child} (h : c ∈ r.children s members) :
    ∃ m ∈ members, r.walked? m.1 = some c.relationship ∧ s.target? c.relationship = some c.target := by
  obtain ⟨m, hm, hc⟩ := List.mem_flatMap.1 h
  unfold childrenAt at hc
  split at hc
  · rename_i rel target items hfound _
    obtain ⟨rel', hrel, hleads⟩ := Option.bind_eq_some_iff.1 hfound
    obtain ⟨target', htarget, hpair⟩ := Option.map_eq_some_iff.1 hleads
    cases hpair
    obtain ⟨item, -, rfl⟩ := List.mem_map.1 hc
    exact ⟨m, hm, hrel, htarget⟩
  · cases hc

/-- Relationships write no values. -/
theorem values?_scalars (stored : Option Record) (members : List (String × Json)) :
    r.values? stored (r.scalars members) = r.values? stored members := by
  unfold values?
  generalize Dict.empty = start
  induction members generalizing start with
  | nil => rfl
  | cons m members ih =>
    rw [scalars, List.filter_cons]
    cases hrel : r.walked? m.1 with
    | none =>
      rw [Option.isNone_none, if_pos rfl, List.foldlM_cons, List.foldlM_cons]
      exact bind_congr ih
    | some rel =>
      have hskips : r.Skips m.1 := .inr (.inr (Option.isSome_of_eq_some (relationship?_of_walked? hrel)))
      rw [Option.isNone_some, if_neg Bool.false_ne_true, List.foldlM_cons, readMember?, if_pos hskips]
      exact ih start

end Resource

/-- The commands that create children, in slots from one on, and link each to an entity. -/
def births (resource : String) (parent : EntityRef) : Nat → List (Child × Record) → List Command
  | _, [] => []
  | slot, (c, values) :: rest =>
    .create slot c.target.name values ::
      .link ⟨resource, c.relationship.name, parent, .pending slot⟩ :: births resource parent (slot + 1) rest

theorem births_append (resource : String) (parent : EntityRef) (slot : Nat)
    (born more : List (Child × Record)) : births resource parent slot (born ++ more) =
      births resource parent slot born ++ births resource parent (slot + born.length) more := by
  induction born generalizing slot with
  | nil => rfl
  | cons b born ih =>
    rw [List.cons_append, births, births, ih, List.length_cons, Nat.add_right_comm, Nat.add_assoc slot]
    rfl

/-! ## Slots -/

/-- A creation in the next slot takes this slot, and a link takes none. -/
theorem Plan.pending_of_birth {p q : Plan} {name : String} {values : Record} {c : LinkChange}
    (h : q.commands = p.commands ++ [.create p.pending name values, .link c]) :
    q.pending = p.pending + 1 := by
  have hq : q.pending = max p.pending (p.pending + 1) := by
    rw [pending, h, List.foldl_append]
    rfl
  rw [hq]
  exact Nat.max_eq_right (Nat.le_succ _)

theorem EntityRef.key_pending_injective {m n : Nat} (h : (pending m).key = (pending n).key) : m = n := by
  have hdigits : toString m = toString n := (String.append_right_inj _).1 h
  exact Nat.repr_inj.1 hdigits

namespace WalkSite

open Walking

variable {site : WalkSite} {w after : Walk} {p : Parent} {target : Resource} {names : List (String × String)}

/-! ## One child -/

/-- A walk that has met none of some entities, and remembers only memberships of what it creates. -/
structure Awaits (site : WalkSite) (names : List (String × String)) (w : Walk) : Prop where
  sound : site.Sound w
  unmet : ∀ e ∈ w.known, e.1 ∉ names
  memberships : ∀ e ∈ w.memberships, ∃ slot < w.plan.pending, e.1.child = (EntityRef.pending slot).key

theorem firstOf?_eq_none {κ α : Type} [DecidableEq κ] {key : κ} {pairs : List (κ × α)}
    (h : ∀ e ∈ pairs, e.1 ≠ key) : firstOf? key pairs = none := by
  rw [firstOf?, Option.map_eq_none_iff, List.find?_eq_none]
  intro e he
  simpa using h e he

/-- An entity that is created is no member yet, and is linked. -/
theorem link_pending {slot : Nat} {child : Known} {explicit : Bool} {path : String} {value : Json} {u : Unit}
    (hmany : p.relationship.isMany = true) (hchild : child.reference = .pending slot)
    (hfree : ∀ e ∈ w.memberships, e.1.child ≠ (EntityRef.pending slot).key)
    (h : (site.link p target child explicit path value).run.run w = (.ok u, after)) :
    after.plan.commands = w.plan.commands ++ [.link (linkChange p (.pending slot))] ∧
      after.issues = w.issues ∧ after.known = w.known ∧
      after.memberships = (p.linkKey (.pending slot), true) :: w.memberships := by
  have hmember : (site.isMember p target (.pending slot)).run.run w = (.ok false, w) := by
    unfold isMember
    rw [bind_of_ok (get_run w), firstOf?_eq_none fun e he hkey => hfree e he (hkey ▸ rfl)]
    cases p.reference <;> rfl
  rcases link_cases h with ⟨hin, -⟩ | ⟨-, _, ⟨-, rfl⟩ | ⟨hone, -⟩, -, rfl⟩
  · rw [hchild, hmember] at hin
    cases hin
  · rw [hchild]
    exact ⟨rfl, rfl, rfl, rfl⟩
  · cases hmany.symm.trans hone

/-- Plans that grow by the births of children. -/
structure Bears (resource : String) (parent : EntityRef) (born : List (Child × Record)) (w after : Walk) :
    Prop where
  writes : ∀ b ∈ born, b.1.Writes b.2
  commands : after.plan.commands = w.plan.commands ++ births resource parent w.plan.pending born
  pending : after.plan.pending = w.plan.pending + born.length

theorem Bears.refl (resource : String) (parent : EntityRef) (w : Walk) : Bears resource parent [] w w :=
  ⟨fun b hb => (by cases hb), (List.append_nil _).symm, rfl⟩

theorem Bears.trans {resource : String} {parent : EntityRef} {born more : List (Child × Record)}
    {between : Walk} (h : Bears resource parent born w between) (k : Bears resource parent more between after) :
    Bears resource parent (born ++ more) w after where
  writes b hb := (List.mem_append.1 hb).elim (h.writes b) (k.writes b)
  commands := by rw [k.commands, h.commands, h.pending, births_append, List.append_assoc]
  pending := by rw [k.pending, h.pending, List.length_append, Nat.add_assoc]

/-- The entity of a new child is not found. -/
theorem Awaits.missing {c : Child} {members : List (String × Json)} {known : Option Known}
    (h : site.Awaits (c.name?.toList ++ names) w) (hmembers : c.members = members)
    (hr : site.registry.schema.resource? c.target.name = some c.target) (hnew : c.IsNew site.tables)
    (hfinds : site.Finds c.target (c.target.identityIn? members) w known after) :
    known = none ∧ after = w := by
  subst hmembers
  cases hidentity : c.target.identityIn? c.members with
  | none =>
    rw [hidentity] at hfinds
    exact hfinds
  | some i =>
    rw [hidentity] at hfinds
    have hunmet : firstOf? (c.target.name, i.key) w.known = none := by
      refine firstOf?_eq_none fun e he hkey => h.unmet e he (List.mem_append_left _ ?_)
      rw [Child.name?, hidentity, hkey]
      exact List.mem_singleton_self _
    rcases lookup_unmet hr hnew.names hnew.filed hidentity hunmet hfinds with ⟨record, -, hrow, -⟩ | hnone
    · cases (hnew.free i hidentity).symm.trans hrow
    · exact hnone

/-- A child that is created and linked is met, and remembered by its slot. -/
theorem Awaits.birth {c : Child} {key : LinkKey} (h : site.Awaits (c.name?.toList ++ names) w)
    (hnodup : (c.name?.toList ++ names).Nodup) (hsound : site.Sound after)
    (hknown : ∀ e ∈ after.known, e.1 ∈ c.name?.toList ∨ e ∈ w.known)
    (hmemberships : after.memberships = (key, true) :: w.memberships)
    (hkey : key.child = (EntityRef.pending w.plan.pending).key)
    (hpending : after.plan.pending = w.plan.pending + 1) : site.Awaits names after := by
  refine ⟨hsound, fun e he hmem => ?_, fun e he => ?_⟩
  · rcases hknown e he with hnamed | hold
    · exact (List.nodup_append.1 hnodup).2.2 _ hnamed _ hmem rfl
    · exact h.unmet e hold (List.mem_append_right _ hmem)
  · rw [hpending]
    rw [hmemberships] at he
    rcases List.mem_cons.1 he with rfl | hold
    · exact ⟨_, Nat.lt_succ_self _, hkey⟩
    · obtain ⟨slot, hslot, hchild⟩ := h.memberships e hold
      exact ⟨slot, Nat.lt_succ_of_lt hslot, hchild⟩

/-- A new child is created and linked. -/
theorem visit_child {c : Child} {path : String} {visited : Option Visited}
    (hr : site.registry.schema.resource? c.target.name = some c.target)
    (hposition : site.Admits w.plan.commands c.target (.nested p)) (hmany : p.relationship.isMany = true)
    (hrel : c.relationship = p.relationship) (hnew : c.IsNew site.tables)
    (hnodup : (c.name?.toList ++ names).Nodup) (hwaits : site.Awaits (c.name?.toList ++ names) w)
    (h : (site.visit c.target path (.nested p) .patch c.document).run.run w = (.ok visited, after))
    (hclean : after.issues = []) :
    ∃ values, Bears p.resource.name p.reference [(c, values)] w after ∧ site.Awaits names after := by
  have hsound := (visit_steps hwaits.sound hr hposition c.document h).1.sound hwaits.sound
  obtain ⟨members, hdocument⟩ := exists_members_of_visit h hclean
  have hmembers : c.members = members := by rw [Child.members, hdocument]
  rw [hdocument, visit] at h
  obtain ⟨opened, opening, hopen, h₁⟩ := bind_eq_ok h
  obtain ⟨op, known, found, hfinds, hentered, -⟩ := entered_of_openObject rfl hopen
  obtain ⟨rfl, rfl⟩ := hwaits.missing hmembers hr hnew hfinds
  obtain ⟨rfl, rfl⟩ := hentered rfl
  obtain ⟨values, founded, attached, hfounds, hattach, hwalk, -⟩ := founds_of_entered hr rfl h₁
  obtain rfl := eq_of_visitRelationships (hmembers ▸ hnew.scalars.walked) hwalk
  have hfree : ∀ e ∈ founded.memberships, e.1.child ≠ (EntityRef.pending opening.plan.pending).key := by
    rw [hfounds.memberships]
    intro e he hkey
    obtain ⟨slot, hslot, hchild⟩ := hwaits.memberships e he
    exact Nat.ne_of_lt hslot (EntityRef.key_pending_injective (hchild.symm.trans hkey))
  obtain ⟨hcommands, hissues, hknown, hmemberships⟩ := link_pending hmany rfl hfree hattach
  rw [hfounds.commands, List.append_assoc, List.singleton_append] at hcommands
  have hpending := Plan.pending_of_birth hcommands
  refine ⟨values, ⟨fun b hb => ?_, ?_, hpending⟩,
    hwaits.birth hnodup hsound (fun e he => ?_) (hfounds.memberships ▸ hmemberships) rfl hpending⟩
  · cases List.mem_singleton.1 hb
    rw [Child.Writes, hmembers]
    exact hfounds.read (hissues ▸ hclean)
  · rw [hcommands, births, births, hrel]
    rfl
  · rw [hknown, hfounds.known, ← hmembers] at he
    refine (List.mem_append.1 he).imp_left fun hlearnt => ?_
    obtain ⟨i, hi, rfl⟩ := Option.map_eq_some_iff.1 (Option.mem_toList.1 hlearnt)
    rw [Child.name?, show c.target.identityIn? c.members = some i from hi]
    exact List.mem_singleton_self _

/-! ## All children -/

/-- New items of a relationship are created and linked one after the other. -/
theorem bears_of_visitItems {path : String} {index : Nat} {items : List Json} {mentioned : List String}
    (hr : site.registry.schema.resource? target.name = some target)
    (hposition : site.Admits w.plan.commands target (.nested p)) (hmany : p.relationship.isMany = true)
    (hnew : ∀ c ∈ items.map (Child.mk p.relationship target), c.IsNew site.tables)
    (hnodup : (Child.names (items.map (Child.mk p.relationship target)) ++ names).Nodup)
    (hwaits : site.Awaits (Child.names (items.map (Child.mk p.relationship target)) ++ names) w)
    (h : (site.visitItems target path p index items).run.run w = (.ok mentioned, after))
    (hclean : after.issues = []) :
    ∃ born, born.map Prod.fst = items.map (Child.mk p.relationship target) ∧
      Bears p.resource.name p.reference born w after ∧ site.Awaits names after := by
  induction items generalizing index w mentioned with
  | nil =>
    rw [visitItems] at h
    cases h
    exact ⟨[], rfl, .refl _ _ _, hwaits⟩
  | cons item items ih =>
    rw [visitItems] at h
    obtain ⟨visited, between, hvisit, h₁⟩ := bind_eq_ok h
    obtain ⟨others, walked, hothers, h₂⟩ := bind_eq_ok h₁
    obtain rfl : walked = after := by
      split at h₂ <;> cases h₂ <;> rfl
    rw [List.map_cons, Child.names, List.flatMap_cons, List.append_assoc] at hnodup hwaits
    have hsteps := (visit_steps hwaits.sound hr hposition item hvisit).1
    have hadmits := hposition.mono hsteps.grows.1
    have hrest := visitItems_steps (hsteps.sound hwaits.sound) hr hadmits items hothers
    obtain ⟨values, hbears, hawaits⟩ := visit_child hr hposition hmany rfl
      (hnew ⟨p.relationship, target, item⟩ List.mem_cons_self) hnodup hwaits hvisit
      (List.prefix_nil.1 (hclean ▸ hrest.extends.2))
    obtain ⟨born, hborn, hbearsRest, hawaitsRest⟩ := ih hadmits
      (fun c hc => hnew c (List.mem_cons_of_mem _ hc)) (List.nodup_append.1 hnodup).2.1 hawaits hothers
    refine ⟨_ :: born, ?_, hbears.trans hbearsRest, hawaitsRest⟩
    rw [List.map_cons, List.map_cons, hborn]

theorem visitRelationships_of_not_walked {s : Scope} {reference : EntityRef} {mode : WriteMode} {key : String}
    (h : s.resource.walked? key = none) (raw : Json) (rest : List (String × Json)) :
    site.visitRelationships s reference mode ((key, raw) :: rest) =
      site.visitRelationships s reference mode rest := by
  rw [visitRelationships]
  unfold Resource.walked? at h
  split at h
  · rename_i hskips
    rw [if_pos hskips]
  · rename_i hskips
    rw [if_neg hskips, h]

/-- The items of a relationship to many are walked over, unless the relationship is only read, which is an
issue. -/
theorem items_of_visitRelationships {s : Scope} {reference : EntityRef} {key : String} {rel : Relationship}
    {items : List Json} {rest : List (String × Json)} {u : Unit} (hwalked : s.resource.walked? key = some rel)
    (hmany : rel.isMany = true)
    (h : (site.visitRelationships s reference .patch ((key, .arr items) :: rest)).run.run w = (.ok u, after)) :
    (∃ between, site.Steps w between ∧ between.issues ≠ [] ∧
        (site.visitRelationships s reference .patch rest).run.run between = (.ok u, after)) ∨
      ∃ target mentioned between, site.registry.schema.target? rel = some target ∧
        (site.visitItems target (joinPath s.path rel.name) ⟨s.resource, rel, reference, s.existing⟩ 0
          items).run.run w = (.ok mentioned, between) ∧
        (site.visitRelationships s reference .patch rest).run.run between = (.ok u, after) := by
  have hskips : ¬(key = DocumentOp.key ∨ key = selfKey) := by
    intro hskips
    rw [Resource.walked?, if_pos hskips] at hwalked
    cases hwalked
  rw [visitRelationships, if_neg hskips, Resource.relationship?_of_walked? hwalked] at h
  dsimp only at h
  rw [if_neg (show ¬(Json.arr items).isString = true from Bool.false_ne_true)] at h
  split at h
  · obtain ⟨_, between, hissue, hrest⟩ := bind_eq_ok h
    have hsteps : site.Steps w between := issue_steps hissue
    cases hissue
    exact .inl ⟨_, hsteps, List.append_ne_nil_of_right_ne_nil _ (List.cons_ne_nil _ _), hrest⟩
  · obtain ⟨target, _, hrequire, h₁⟩ := bind_eq_ok h
    obtain ⟨htarget, rfl⟩ := liftM_eq_ok hrequire
    obtain ⟨mentioned, between, hitems, hrest⟩ := bind_eq_ok h₁
    exact .inr ⟨target, mentioned, between, Schema.require_eq_ok.1 htarget, hitems, hrest⟩

/-- New children in the relationships of a document are created and linked one after the other. -/
theorem bears_of_visitRelationships {s : Scope} {reference : EntityRef} {members : List (String × Json)}
    {u : Unit} (hr : site.registry.schema.resource? s.resource.name = some s.resource)
    (hknows : site.Knows w.plan.commands s.resource s.existing reference)
    (harrays : ∀ m ∈ members, ∀ rel, s.resource.walked? m.1 = some rel →
      rel.isMany = true ∧ ∃ items, m.2 = .arr items)
    (hnew : ∀ c ∈ s.resource.children site.registry.schema members, c.IsNew site.tables)
    (hnodup : (Child.names (s.resource.children site.registry.schema members)).Nodup)
    (hwaits : site.Awaits (Child.names (s.resource.children site.registry.schema members)) w)
    (h : (site.visitRelationships s reference .patch members).run.run w = (.ok u, after))
    (hclean : after.issues = []) :
    ∃ born, born.map Prod.fst = s.resource.children site.registry.schema members ∧
      Bears s.resource.name reference born w after := by
  induction members generalizing w with
  | nil =>
    rw [visitRelationships] at h
    cases h
    exact ⟨[], rfl, .refl _ _ _⟩
  | cons m members ih =>
    obtain ⟨key, raw⟩ := m
    rw [Resource.children, List.flatMap_cons] at hnew hnodup hwaits ⊢
    rw [Child.names, List.flatMap_append] at hnodup hwaits
    have harraysRest := fun m hm => harrays m (List.mem_cons_of_mem _ hm)
    have hnewRest := fun c hc => hnew c (List.mem_append_right _ hc)
    cases hwalked : s.resource.walked? key with
    | none =>
      rw [Resource.childrenAt_of_not_walked hwalked] at hnodup hwaits ⊢
      rw [visitRelationships_of_not_walked hwalked] at h
      exact ih hknows harraysRest hnewRest hnodup hwaits h
    | some rel =>
      have hrel := Resource.relationship?_of_walked? hwalked
      obtain ⟨hmany, items, rfl⟩ := harrays (key, raw) List.mem_cons_self rel hwalked
      -- What is planned or found to be wrong stays so over the rest of the document.
      have hextends : ∀ {between : Walk}, site.Steps w between →
          (site.visitRelationships s reference .patch members).run.run between = (.ok u, after) →
            between.issues = [] := fun hsteps hrest => List.prefix_nil.1 (hclean ▸
        (visitRelationships_steps (hsteps.sound hwaits.sound) hr (hknows.mono hsteps.grows.1) members
          hrest).extends.2)
      rcases items_of_visitRelationships hwalked hmany h with
        ⟨between, hsteps, hissues, hrest⟩ | ⟨target, mentioned, between, htarget, hitems, hrest⟩
      · exact absurd (hextends hsteps hrest) hissues
      · rw [Resource.childrenAt_items hwalked htarget] at hnew hnodup hwaits ⊢
        have hleads := Schema.resource?_of_target? htarget
        have hposition : site.Admits w.plan.commands target
            (.nested ⟨s.resource, rel, reference, s.existing⟩) :=
          ⟨⟨hr, (Resource.name_of_relationship? hrel).symm ▸ hrel, hknows⟩, htarget⟩
        have hsteps := visitItems_steps hwaits.sound hleads hposition items hitems
        obtain ⟨born, hborn, hbears, hawaits⟩ := bears_of_visitItems hleads hposition hmany
          (fun c hc => hnew c (List.mem_append_left _ hc)) hnodup hwaits hitems (hextends hsteps hrest)
        obtain ⟨more, hmore, hbearsRest⟩ := ih (hknows.mono hsteps.grows.1) harraysRest hnewRest
          (List.nodup_append.1 hnodup).2.1 hawaits hrest
        refine ⟨born ++ more, ?_, hbears.trans hbearsRest⟩
        rw [List.map_append, hborn, hmore]
        rfl

end WalkSite

namespace WriteOp

open Walking

variable {site : WalkSite} {r : Resource} {members : List (String × Json)} {roots : List EntityRef} {w : Walk}

/-- The plan of a creation with children: first the entity at the top, then child by child. -/
theorem create_births (hr : site.registry.schema.resource? r.name = some r)
    (harrays : ∀ m ∈ members, ∀ rel, r.walked? m.1 = some rel → rel.isMany = true ∧ ∃ items, m.2 = .arr items)
    (hnew : ∀ c ∈ r.children site.registry.schema members, c.IsNew site.tables)
    (hdistinct : (((r.identityIn? members).map fun i => (r.name, i.key)).toList ++
      Child.names (r.children site.registry.schema members)).Nodup)
    (hrun : ((create r.name (.obj members)).walk site).run.run {} = (.ok roots, w)) (hclean : w.issues = []) :
    ∃ values born, r.values? none members = some values ∧
      born.map Prod.fst = r.children site.registry.schema members ∧ (∀ b ∈ born, b.1.Writes b.2) ∧
      w.plan.commands = .create 0 r.name values :: births r.name (.pending 0) 1 born := by
  obtain ⟨values, founded, -, hfounds, hwalk⟩ := create_visits hr hrun hclean
  have hsound := hfounds.steps.sound WalkSite.sound_empty
  obtain ⟨-, hnodup, hapart⟩ := List.nodup_append.1 hdistinct
  have hcommands : founded.plan.commands = [.create 0 r.name values] := hfounds.commands
  have hpending : founded.plan.pending = 1 := by rw [Plan.pending, hcommands]; rfl
  have hawaits : site.Awaits (Child.names (r.children site.registry.schema members)) founded := by
    refine ⟨hsound, fun e he => ?_, fun e he => ?_⟩
    · rw [hfounds.known, List.append_nil] at he
      obtain ⟨i, hi, rfl⟩ := Option.map_eq_some_iff.1 (Option.mem_toList.1 he)
      exact fun hmem => hapart _ (Option.mem_toList.2 (Option.mem_map_of_mem _ hi)) _ hmem rfl
    · rw [hfounds.memberships] at he
      cases he
  obtain ⟨born, hborn, hbears⟩ := WalkSite.bears_of_visitRelationships hr hfounds.knows harrays hnew hnodup
    hawaits hwalk hclean
  have hextends := (WalkSite.visitRelationships_steps hsound hr hfounds.knows members hwalk).extends
  refine ⟨values, born, hfounds.read (List.prefix_nil.1 (hclean ▸ hextends.2)), hborn, hbears.writes, ?_⟩
  rw [hbears.commands, hcommands, hpending]
  rfl

/-- The plan of an update that says of a relationship of a stored entity that it has a new member. -/
theorem update_birth {i : Identity} {c : Child} (hr : site.registry.schema.resource? r.name = some r)
    (hwalked : r.walked? c.relationship.name = some c.relationship)
    (hleads : site.registry.schema.target? c.relationship = some c.target)
    (hmany : c.relationship.isMany = true) (hpinpoints : site.tables.Pinpoints r i)
    (hnew : c.IsNew site.tables)
    (hrun : ((update r.name i (.obj [(c.relationship.name, .arr [c.document])]) .patch).walk site).run.run {} =
      (.ok roots, w)) (hclean : w.issues = []) :
    ∃ values, c.Writes values ∧ w.plan.commands = births r.name (.existing i) 0 [(c, values)] := by
  obtain ⟨-, record, between, htop, hwalk⟩ := WalkSite.update_single_enters hr
    (Resource.relationship?_of_walked? hwalked) hpinpoints rfl hrun
  have hchildren : r.children site.registry.schema [(c.relationship.name, .arr [c.document])] = [c] := by
    rw [Resource.children, List.flatMap_singleton, Resource.childrenAt_items hwalked hleads]
    rfl
  have hnames : Child.names [c] = c.name?.toList := List.flatMap_singleton ..
  have hawaits : site.Awaits (Child.names [c]) between := by
    refine ⟨htop.sound, fun e he hmem => ?_, fun e he => ?_⟩
    · rw [htop.known] at he
      cases List.mem_singleton.1 he
      -- The child would name the entity at the top, which is stored.
      rw [hnames, Option.mem_toList, Child.name?, Option.map_eq_some_iff] at hmem
      obtain ⟨j, hj, hname⟩ := hmem
      obtain ⟨hname, hkey⟩ := Prod.mk.inj hname
      have hfree := hnew.free j hj
      rw [Tables.row?, hname, hkey] at hfree
      cases hfree.symm.trans htop.stores.row
    · rw [htop.memberships] at he
      cases he
  have hnodup : (Child.names [c]).Nodup := by
    rw [hnames]
    cases c.name? <;> simp
  have harrays : ∀ m ∈ [(c.relationship.name, Json.arr [c.document])], ∀ rel, r.walked? m.1 = some rel →
      rel.isMany = true ∧ ∃ items, m.2 = .arr items := by
    intro m hm rel hrel
    cases List.mem_singleton.1 hm
    cases hwalked.symm.trans hrel
    exact ⟨hmany, _, rfl⟩
  have hnews : ∀ d ∈ [c], d.IsNew site.tables := fun d hd => List.mem_singleton.1 hd ▸ hnew
  rw [← hchildren] at hawaits hnodup hnews
  obtain ⟨born, hborn, hbears⟩ := WalkSite.bears_of_visitRelationships hr (htop.knows hr) harrays hnews hnodup
    hawaits hwalk hclean
  rw [WalkSite.storedRoot, hchildren] at hborn
  obtain ⟨b, rfl, rfl⟩ := List.map_eq_singleton_iff.1 hborn
  refine ⟨b.2, hbears.writes b (List.mem_singleton_self b), ?_⟩
  rw [hbears.commands, htop.commands, Plan.pending, htop.commands]
  rfl

end WriteOp

end NestedResources
