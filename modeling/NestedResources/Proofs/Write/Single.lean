import NestedResources.Proofs.Write.Items
import NestedResources.Proofs.Write.Pinpoint

/-!
# Documents about one member

An update may say of a relationship to one entity that it has no member, or name the entity that is to be
its member. Whatever the gates are, a walk over such a document that ends well without an issue has
planned to detach the members that the caller sees, or to link the named entity and to detach the others
first where the relationship does not go by a foreign key of its own (`WalkSite.update_null_plan`,
`WalkSite.update_named_plan`).
-/
namespace NestedResources

/-- The members of a document that names an entity by its identity, and may say what it is there for. -/
structure Resource.Names (r : Resource) (members : List (String × Json)) (i : Identity) : Prop where
  only : ∀ e ∈ members, e.1 = DocumentOp.key ∨ e.1 ∈ r.identity
  op : ∃ op, DocumentOp.ofMembers? members = .ok op ∧ op ≠ some .remove
  identity : r.identityIn? members = some i

/-- A document whose only member is no text has no op, and its member does not hold one. -/
theorem DocumentOp.ofMembers?_single {name : String} {raw : Json} {op : Option DocumentOp}
    (hraw : raw.isString = false) (h : ofMembers? [(name, raw)] = .ok op) : name ≠ key ∧ op = none := by
  by_cases hname : name = key
  · have hread : read raw = .error (.badRequest .opNotText) := by
      cases raw with
      | str text => cases hraw
      | _ => rfl
    rw [ofMembers?, Entries.get?, if_pos hname] at h
    dsimp only at h
    rw [hread] at h
    cases h
  · rw [ofMembers?, Entries.get?, if_neg hname] at h
    cases h
    exact ⟨hname, rfl⟩

namespace WalkSite

open Walking

/-- The plan grows by commands, and issues are only added. -/
structure Extends (w after : Walk) (commands : List Command) : Prop where
  commands : after.plan.commands = w.plan.commands ++ commands
  issues : w.issues <+: after.issues

variable {site : WalkSite} {w after : Walk} {p : Parent} {target : Resource}

theorem Extends.refl (w : Walk) : Extends w w [] := ⟨(List.append_nil _).symm, List.prefix_refl _⟩

theorem Extends.trans {between : Walk} {cs more : List Command} (h : Extends w between cs)
    (k : Extends between after more) : Extends w after (cs ++ more) :=
  ⟨by rw [k.commands, h.commands, List.append_assoc], h.issues.trans k.issues⟩

theorem Moves.toExtends {cs : List Command} {ms : List (LinkKey × Bool)} {found : List Issue}
    (h : Moves w after cs ms found) : Extends w after cs :=
  ⟨h.commands, h.issues ▸ List.prefix_append _ _⟩

theorem Asked.toExtends {qs : List Question} (h : site.Asked qs w after) : Extends w after [] := by
  obtain ⟨-, found, rfl⟩ := h
  exact ⟨(List.append_nil _).symm, List.prefix_append _ _⟩

/-! ## Detaching -/

theorem planUnlink_extends {child : Known} {value : Option Json} {u : Unit}
    (h : (site.planUnlink p target child value).run.run w = (.ok u, after)) :
    Extends w after [.unlink (linkChange p child.reference)] := by
  obtain ⟨-, rfl⟩ := planUnlink_eq_ok h
  exact ⟨rfl, List.prefix_refl _⟩

/-- What is planned for members when those with some keys are kept. -/
def displacing (p : Parent) (keep : List String) (references : List EntityRef) : List Command :=
  if p.relationship.join.isForeignKey && !keep.isEmpty then []
  else (references.filter fun reference => decide (reference.key ∉ keep)).map fun reference =>
    .unlink (linkChange p reference)

theorem displace_extends {keep : List String} {m : Known} {u : Unit}
    (h : (site.displace p target keep m).run.run w = (.ok u, after)) :
    Extends w after (displacing p keep [m.reference]) := by
  unfold displacing
  rcases displace_cases h with ⟨hkeep, rfl⟩ | ⟨-, howned, -, rfl⟩ | ⟨hkeep, howned, h⟩
  · simp only [List.filter_cons, hkeep, not_true, decide_false, Bool.false_eq_true, if_false,
      List.filter_nil, List.map_nil, ite_self]
    exact .refl after
  · rw [if_pos howned]
    exact ⟨(List.append_nil _).symm, List.prefix_refl _⟩
  · rw [if_neg howned]
    simp only [List.filter_cons, hkeep, not_false_eq_true, decide_true, if_true, List.filter_nil,
      List.map_cons, List.map_nil]
    exact planUnlink_extends h

theorem displacing_cons (p : Parent) (keep : List String) (reference : EntityRef)
    (references : List EntityRef) : displacing p keep (reference :: references) =
      displacing p keep [reference] ++ displacing p keep references := by
  unfold displacing
  split
  · rfl
  · rw [← List.map_append, ← List.filter_append, List.singleton_append]

theorem displaceAll_extends {keep : List String} {members : List Known} {u : Unit}
    (h : (members.forM (site.displace p target keep)).run.run w = (.ok u, after)) :
    Extends w after (displacing p keep (members.map Known.reference)) := by
  induction members generalizing w with
  | nil =>
    cases h
    unfold displacing
    simp only [List.map_nil, List.filter_nil, ite_self]
    exact .refl _
  | cons m members ih =>
    obtain ⟨_, between, hfirst, hrest⟩ := bind_eq_ok h
    rw [List.map_cons, displacing_cons]
    exact (displace_extends hfirst).trans (ih hrest)

/-- The stored members of a relationship that the caller sees. -/
def seen (site : WalkSite) (p : Parent) (target : Resource) (i : Identity) (required : Option Predicate) :
    List Identity :=
  site.tables.matching site.registry.schema target
    (Predicate.conjoin (some (.memberOf p.resource.name i p.relationship.name)) required)

theorem mem_seen {i k : Identity} {record : Record} {required : Option Predicate}
    (howns : site.Owns p target i record) : k ∈ site.seen p target i required ↔
      ∃ row ∈ site.tables.rowsOf target.name, target.identityOf? row = some k ∧
        k.key ∈ site.tables.memberKeys site.registry.schema p.resource target record p.relationship ∧
        site.tables.passes site.registry.schema target required row = true := by
  rw [seen, Tables.mem_matching]
  have hholds : ∀ row, target.identityOf? row = some k → (site.tables.passes site.registry.schema target
      (some (.memberOf p.resource.name i p.relationship.name)) row = true ↔
        k.key ∈ site.tables.memberKeys site.registry.schema p.resource target record p.relationship) := by
    intro row hk
    rw [Tables.passes, howns.memberOf_holds, Owns.isAmong_iff hk]
  constructor
  · rintro ⟨row, hrow, hpasses, hk⟩
    rw [Predicate.passes_conjoin, Bool.and_eq_true, hholds row hk] at hpasses
    exact ⟨row, hrow, hk, hpasses⟩
  · rintro ⟨row, hrow, hk, hpasses⟩
    refine ⟨row, hrow, ?_, hk⟩
    rw [Predicate.passes_conjoin, Bool.and_eq_true, hholds row hk]
    exact hpasses

/-- A walk that has changed no membership finds the members that are stored. -/
theorem currentMembers_seen {i : Identity} {members : List Known} (hreference : p.reference = .existing i)
    (htarget : site.registry.schema.resource? target.name = some target) (hnone : w.memberships = [])
    (h : (site.currentMembers p target).run.run w = (.ok members, after)) :
    after = w ∧ ∃ required, site.registry.required site.ctx target = .ok required ∧
      members.map Known.reference = (site.seen p target i required).map EntityRef.existing := by
  unfold currentMembers at h
  simp only [hreference] at h
  obtain ⟨required, _, hrequired, h⟩ := bind_eq_ok h
  obtain ⟨hfilter, rfl⟩ := liftM_eq_ok hrequired
  obtain ⟨rows, _, hfetch, h⟩ := bind_eq_ok h
  obtain ⟨hrows, rfl⟩ := liftM_eq_ok hfetch
  obtain ⟨_, _, hget, h⟩ := bind_eq_ok h
  cases hget
  cases h
  refine ⟨rfl, required, hfilter, ?_⟩
  cases (site.tables.fetch_selected htarget _).symm.trans hrows
  rw [seen, Tables.matching, ← references_storedAs?, List.filterMap_map]
  refine congrArg (List.map Known.reference) (List.filterMap_congr fun record _ => ?_)
  rw [hnone]
  change (target.identityOf? record).bind _ = (target.identityOf? record).map _
  cases target.identityOf? record <;> rfl

theorem unlinkAbsent_extends {i : Identity} {keep : List String} {u : Unit}
    (hreference : p.reference = .existing i)
    (htarget : site.registry.schema.resource? target.name = some target) (hnone : w.memberships = [])
    (h : (site.unlinkAbsent p target keep).run.run w = (.ok u, after)) :
    ∃ required, site.registry.required site.ctx target = .ok required ∧
      Extends w after (displacing p keep ((site.seen p target i required).map EntityRef.existing)) := by
  obtain ⟨members, _, hmembers, hloop⟩ := bind_eq_ok h
  obtain ⟨rfl, required, hrequired, hseen⟩ := currentMembers_seen hreference htarget hnone hmembers
  exact ⟨required, hrequired, hseen ▸ displaceAll_extends hloop⟩

/-! ## Linking -/

/-- What is planned to make an entity the member of a relationship to one entity. -/
def replacing (p : Parent) (i j : Identity) (others : List Identity) : List Command :=
  displacing p [j.key] (others.map EntityRef.existing) ++ [.link ⟨p.resource.name, p.relationship.name,
    .existing i, .existing j⟩]

/-- A foreign key of the entity itself is overwritten. -/
theorem replacing_of_foreignKey {i j : Identity} (hjoin : p.relationship.join.isForeignKey = true)
    (others : List Identity) : replacing p i j others =
      [.link ⟨p.resource.name, p.relationship.name, .existing i, .existing j⟩] := by
  rw [replacing, displacing, hjoin]
  rfl

/-- Others are detached first where they hold the key. -/
theorem replacing_of_held {i j : Identity} (hjoin : p.relationship.join.isForeignKey = false)
    (hreference : p.reference = .existing i) {others : List Identity}
    (hothers : ∀ k ∈ others, k.key ≠ j.key) : replacing p i j others =
      (others.map fun k => .unlink ⟨p.resource.name, p.relationship.name, .existing i, .existing k⟩) ++
        [.link ⟨p.resource.name, p.relationship.name, .existing i, .existing j⟩] := by
  have hkept : (others.map EntityRef.existing).filter
      (fun reference => decide (reference.key ∉ [j.key])) = others.map EntityRef.existing := by
    refine List.filter_eq_self.2 fun reference hmem => ?_
    obtain ⟨k, hk, rfl⟩ := List.mem_map.1 hmem
    refine decide_eq_true fun hkey => ?_
    exact hothers k hk (List.mem_singleton.1 hkey)
  rw [replacing, displacing, hjoin, Bool.false_and, if_neg Bool.false_ne_true, hkept, List.map_map]
  simp only [Function.comp_def, linkChange, hreference]

/-- An entity is linked unless it is a member already. -/
theorem link_extends {i j : Identity} {record childRow : Record} {child : Known} {explicit : Bool}
    {path : String} {value : Json} {u : Unit} (howns : site.Owns p target i record)
    (hone : p.relationship.isMany = false) (hpinpoints : site.tables.Pinpoints target j)
    (hchild : site.tables.Stores target j childRow) (hreference : child.reference = .existing j)
    (hnone : w.memberships = [])
    (h : (site.link p target child explicit path value).run.run w = (.ok u, after)) :
    (j.key ∈ site.tables.memberKeys site.registry.schema p.resource target record p.relationship ∧
        Extends w after []) ∨
      (j.key ∉ site.tables.memberKeys site.registry.schema p.resource target record p.relationship ∧
        ∃ required, site.registry.required site.ctx target = .ok required ∧
          Extends w after (replacing p i j (site.seen p target i required))) := by
  have hfound : ∀ row ∈ site.tables.rowsOf target.name, site.tables.passes site.registry.schema target
      (some (.identity target j)) row = true ↔ row = childRow := by
    intro row hrow
    rw [Tables.passes_identity, hpinpoints row hrow]
    constructor
    · exact fun hrow => Option.some.inj (hrow.row.symm.trans hchild.row)
    · rintro rfl
      exact hchild
  have hmember : (site.isMember p target child.reference).run.run w = (.ok (decide (j.key ∈
      site.tables.memberKeys site.registry.schema p.resource target record p.relationship)), w) := by
    rw [hreference, howns.isMember_of_found hfound hchild, hasMember, hnone]
    rfl
  rcases link_cases h with ⟨hin, found, rfl⟩ | ⟨hout, vacated, hvacated, -, rfl⟩
  · exact .inl ⟨of_decide_eq_true (Except.ok.inj (Prod.mk.inj (hmember.symm.trans hin)).1),
      (List.append_nil _).symm, List.prefix_append _ _⟩
  · refine .inr ⟨of_decide_eq_false (Except.ok.inj (Prod.mk.inj (hmember.symm.trans hout)).1), ?_⟩
    obtain ⟨-, hunlink⟩ := hvacated.resolve_left fun hmany => by cases hmany.1.symm.trans hone
    obtain ⟨required, hrequired, hextends⟩ := unlinkAbsent_extends howns.reference howns.resource_target hnone
      hunlink
    refine ⟨required, hrequired, ?_, hextends.issues⟩
    rw [hreference] at hextends
    rw [replacing, ← List.append_assoc, ← howns.reference, ← hreference]
    exact congrArg (· ++ [.link (linkChange p child.reference)]) hextends.commands

/-! ## Looking up -/

/-- A look-up finds the row of an identity or nothing, and a stored entity that the caller sees is
found. -/
theorem lookup_cases {r : Resource} {i : Identity} {found : Option Known}
    (hr : site.registry.schema.resource? r.name = some r) (hpinpoints : site.tables.Pinpoints r i)
    (hnew : firstOf? (r.name, i.key) w.known = none)
    (h : (site.lookup r i).run.run w = (.ok found, after)) :
    (∃ record, site.tables.Stores r i record ∧ found = some ⟨.existing i, record, false⟩ ∧
        after = { w with known := ((r.name, i.key), ⟨.existing i, record, false⟩) :: w.known }) ∨
      (found = none ∧ after = w ∧ ∀ record, ¬site.tables.Stores r i record) := by
  unfold lookup at h
  rw [bind_of_ok (get_run w), hnew] at h
  obtain ⟨required, _, hrequired, h⟩ := bind_eq_ok h
  obtain ⟨-, rfl⟩ := liftM_eq_ok hrequired
  obtain ⟨rows, _, hfetch, h⟩ := bind_eq_ok h
  obtain ⟨hrows, rfl⟩ := liftM_eq_ok hfetch
  obtain ⟨_, hfirst, hpass, hempty⟩ := site.tables.fetch_first hr
    (Predicate.conjoin (some (.identity r i)) required)
  cases hfirst.symm.trans hrows
  split at h
  · rename_i row rest
    obtain ⟨hrow, hpasses⟩ := hpass row List.mem_cons_self
    rw [Predicate.passes_conjoin, Bool.and_eq_true, Tables.passes_identity] at hpasses
    have hstores := (hpinpoints row.record hrow).1 hpasses.1
    obtain ⟨_, _, hlearn, h⟩ := bind_eq_ok h
    cases hlearn
    cases h
    rw [hstores.identity, Option.getD_some]
    exact .inl ⟨row.record, hstores, rfl, rfl⟩
  · have hcount := site.tables.count_eq hr (some (.identity r i))
    have hmissing : ∀ record, site.tables.Stores r i record → (required.isSome = true ∧
        0 < (site.tables.rowsOf r.name).countP (site.tables.passes site.registry.schema r
          (some (.identity r i)))) := by
      intro record hstores
      have hfails := hempty rfl record hstores.mem_rowsOf
      have hmeets := (hpinpoints record hstores.mem_rowsOf).2 hstores
      rw [Predicate.passes_conjoin, Tables.passes_identity, hmeets, Bool.true_and] at hfails
      refine ⟨?_, List.countP_pos_iff.2 ⟨record, hstores.mem_rowsOf, ?_⟩⟩
      · cases required with
        | none => cases hfails
        | some filter => rfl
      · rw [Tables.passes_identity]
        exact hmeets
    split at h
    · obtain ⟨hidden, _, hhidden, h⟩ := bind_eq_ok h
      obtain ⟨hcounted, rfl⟩ := liftM_eq_ok hhidden
      cases hcount.symm.trans hcounted
      split at h
      · cases h
      · rename_i hzero
        cases h
        exact .inr ⟨rfl, rfl, fun record hstores => hzero (hmissing record hstores).2⟩
    · rename_i hfree
      cases h
      exact .inr ⟨rfl, rfl, fun record hstores => hfree (hmissing record hstores).1⟩

/-! ## Documents that name an entity -/

/-- A document that names a stored entity reads nothing into it and links it. -/
theorem visit_named_extends {i j : Identity} {record childRow : Record} {members : List (String × Json)}
    {path : String} {visited : Option Visited} (howns : site.Owns p target i record)
    (hone : p.relationship.isMany = false) (hpinpoints : site.tables.Pinpoints target j)
    (hchild : site.tables.Stores target j childRow) (hnames : target.Names members j)
    (hmet : ∀ k, firstOf? (target.name, j.key) w.known = some k → k = ⟨.existing j, childRow, false⟩)
    (hnone : w.memberships = [])
    (h : (site.visit target path (.nested p) .patch (.obj members)).run.run w = (.ok visited, after)) :
    (j.key ∈ site.tables.memberKeys site.registry.schema p.resource target record p.relationship ∧
        Extends w after []) ∨
      (j.key ∉ site.tables.memberKeys site.registry.schema p.resource target record p.relationship ∧
        ∃ required, site.registry.required site.ctx target = .ok required ∧
          Extends w after (replacing p i j (site.seen p target i required))) := by
  have htarget := howns.resource_target
  obtain ⟨op, hop, hstays⟩ := hnames.op
  have hidentity : (identityOf target path (.nested p) members).run.run w = (.ok (some j), w) := by
    unfold identityOf
    rw [hnames.identity]
    rfl
  -- The entity is known as it is stored, and nothing else is learnt.
  have hlookup : ∀ found between, (site.lookup target j).run.run w = (.ok found, between) →
      found = some ⟨.existing j, childRow, false⟩ ∧ Extends w between [] ∧ between.memberships = [] := by
    intro found between hfound
    cases hseen : firstOf? (target.name, j.key) w.known with
    | some k =>
      rw [lookup_met hseen] at hfound
      cases hfound
      exact ⟨congrArg some (hmet k hseen), .refl _, hnone⟩
    | none =>
      rcases lookup_cases htarget hpinpoints hseen hfound with
        ⟨row, hstores, rfl, rfl⟩ | ⟨-, -, habsent⟩
      · have hrow : row = childRow := Option.some.inj (hstores.row.symm.trans hchild.row)
        rw [hrow]
        exact ⟨rfl, ⟨(List.append_nil _).symm, List.prefix_refl _⟩, hnone⟩
      · exact absurd hchild (habsent childRow)
  rw [visit] at h
  obtain ⟨opened, between, hopened, h⟩ := bind_eq_ok h
  unfold openObject at hopened
  rw [bind_of_ok (liftM_ok hop w), bind_of_ok hidentity] at hopened
  dsimp only at hopened
  obtain ⟨found, _, hfound, hopened⟩ := bind_eq_ok hopened
  obtain ⟨rfl, hbetween, hfree⟩ := hlookup found _ hfound
  dsimp only at hopened
  rw [if_neg hstays] at hopened
  cases hopened
  dsimp only at h
  have hscope : (⟨target, path, .nested p, some j, some ⟨.existing j, childRow, false⟩⟩ : Scope).known =
    some ⟨.existing j, childRow, false⟩ := rfl
  obtain ⟨read, issues, hread, hreads, -⟩ := site.readFields_identity hscope htarget hnames.only between
  rw [bind_of_ok hread] at h
  simp only [Scope.creating, Option.isNone_some, Bool.false_or, reduceCtorEq, decide_false,
    Bool.false_eq_true, if_false] at h
  rw [bind_of_ok (place_unchanged rfl members read)] at h
  obtain ⟨_, linked, hattach, h⟩ := bind_eq_ok h
  have hreadFree : read.memberships = [] := hreads.memberships.trans hfree
  have hskip : site.visitRelationships ⟨target, path, .nested p, some j, some ⟨.existing j, childRow, false⟩⟩
      (.existing j) .patch (members ++ []) = pure () := by
    rw [visitRelationships_append fun e he => (hnames.only e he).imp id fun hid => by
      obtain ⟨f, hf⟩ := (Schema.faultless_of_resource? htarget).2.1 e.1 hid
      exact Schema.relationship?_of_field? htarget hf, visitRelationships]
  rw [List.append_nil] at hskip
  rw [hskip] at h
  cases h
  have hstart := hbetween.trans hreads.toExtends
  rcases link_extends howns hone hpinpoints hchild rfl hreadFree hattach with
    ⟨hin, hlinked⟩ | ⟨hnot, required, hrequired, hlinked⟩
  · exact .inl ⟨hin, hstart.trans hlinked⟩
  · exact .inr ⟨hnot, required, hrequired, hstart.trans hlinked⟩

/-! ## Updates -/

/-- The entity at the top of an update with the relationship that its document is about. -/
def topParent (r : Resource) (rel : Relationship) (i : Identity) (record : Record) : Parent :=
  ⟨r, rel, .existing i, some record⟩

/-- A walk that has found the entity at the top of an update and planned nothing. -/
structure AtTop (site : WalkSite) (r : Resource) (i : Identity) (record : Record) (w : Walk) : Prop where
  stores : site.tables.Stores r i record
  commands : w.plan.commands = []
  known : w.known = [((r.name, i.key), ⟨.existing i, record, false⟩)]
  memberships : w.memberships = []
  sound : site.Sound w

theorem AtTop.asked {r : Resource} {i : Identity} {record : Record} {qs : List Question}
    (h : site.AtTop r i record w) (hasked : site.Asked qs w after) : site.AtTop r i record after := by
  have hsound := hasked.steps.sound h.sound
  obtain ⟨-, found, rfl⟩ := hasked
  exact ⟨h.stores, h.commands, h.known, h.memberships, hsound⟩

/-- The entity at the top may be referred to. -/
theorem AtTop.knows {r : Resource} {i : Identity} {record : Record} (h : site.AtTop r i record w)
    (hr : site.registry.schema.resource? r.name = some r) :
    site.Knows w.plan.commands r (some record) (.existing i) := by
  have hmem : ((r.name, i.key), ⟨.existing i, record, false⟩) ∈ w.known := by
    rw [h.known]
    exact List.mem_singleton_self _
  exact h.sound.known _ hmem r hr

section

variable {r : Resource} {rel : Relationship} {i : Identity} {raw : Json} {mode : WriteMode}
  {roots : List EntityRef}

/-- A document without an op opens the entity at the top of an update. -/
theorem openObject_of_no_op {members : List (String × Json)} {opened : Opened}
    (hr : site.registry.schema.resource? r.name = some r) (hpinpoints : site.tables.Pinpoints r i)
    (hop : DocumentOp.ofMembers? members = .ok none)
    (h : (site.openObject r "" (.root (.update i)) members).run.run {} = (.ok opened, after)) :
    ∃ record, site.AtTop r i record after ∧
      opened = .entered none (some i) (some ⟨.existing i, record, false⟩) := by
  have hsound := (openObject_steps sound_empty hr (admits_root _ r _) h).1.sound sound_empty
  unfold openObject at h
  rw [bind_of_ok (liftM_ok hop _)] at h
  obtain ⟨identity, opening, hidentity, h⟩ := bind_eq_ok h
  have hopening : identity = some i ∧ opening.known = [] ∧ opening.plan = {} ∧ opening.memberships = [] := by
    unfold identityOf at hidentity
    dsimp only [Position.identity?] at hidentity
    split at hidentity
    · cases hidentity
      exact ⟨rfl, rfl, rfl, rfl⟩
    · cases hidentity
      exact ⟨rfl, rfl, rfl, rfl⟩
  obtain ⟨rfl, hknown, hplan, hfree⟩ := hopening
  dsimp only at h
  obtain ⟨found, _, hlookup, h⟩ := bind_eq_ok h
  rcases lookup_cases hr hpinpoints (by rw [hknown]; rfl) hlookup with
    ⟨record, hstores, rfl, rfl⟩ | ⟨rfl, -, -⟩
  · cases h
    refine ⟨record, ⟨hstores, ?_, ?_, hfree, hsound⟩, rfl⟩
    · rw [hplan]
    · rw [hknown]
  · cases h

/-- A document about a relationship opens the entity at the top of an update. -/
theorem openObject_single {opened : Opened} (hr : site.registry.schema.resource? r.name = some r)
    (hpinpoints : site.tables.Pinpoints r i) (hraw : raw.isString = false)
    (h : (site.openObject r "" (.root (.update i)) [(rel.name, raw)]).run.run {} = (.ok opened, after)) :
    rel.name ≠ DocumentOp.key ∧ ∃ record, site.AtTop r i record after ∧
      opened = .entered none (some i) (some ⟨.existing i, record, false⟩) := by
  obtain ⟨op, _, hop, -⟩ := bind_eq_ok h
  obtain ⟨hread, -⟩ := liftM_eq_ok hop
  obtain ⟨hkey, rfl⟩ := DocumentOp.ofMembers?_single hraw hread
  exact ⟨hkey, openObject_of_no_op hr hpinpoints hread h⟩

/-- A walk goes on to what the only relationship of a document asks for. -/
abbrev GoesOn (site : WalkSite) (target : Resource) (p : Parent) (raw : Json) (w after : Walk) : Prop :=
  p.relationship.name ≠ selfKey ∧ ∃ u, (if raw.isObject then do
      let _ ← site.visit target (joinPath "" p.relationship.name) (.nested p) .patch raw
    else site.unlinkAbsent p target [] : Walking Unit).run.run w = (.ok u, after)

/-- What the relationship of a document asks for is planned, unless it is passed over. -/
theorem visitRelationships_single {record : Record} {u : Unit} (hrel : r.relationship? rel.name = some rel)
    (htarget : site.registry.schema.target? rel = some target) (hone : rel.isMany = false)
    (hkey : rel.name ≠ DocumentOp.key) (hraw : raw.isObject = true ∨ raw.isNull = true)
    (h : (site.visitRelationships (storedRoot r i record) (.existing i) mode [(rel.name, raw)]).run.run w =
      (.ok u, after)) (hissues : after.issues = []) :
    (rel.name = selfKey ∧ after = w) ∨ site.GoesOn target (topParent r rel i record) raw w after := by
  have htext : raw.isString = false := by
    cases raw with
    | str text => rcases hraw with hraw | hraw <;> cases hraw
    | _ => rfl
  by_cases hself : rel.name = selfKey
  · rw [visitRelationships, if_pos (.inr hself), visitRelationships] at h
    cases h
    exact .inl ⟨hself, rfl⟩
  refine .inr ⟨hself, u, ?_⟩
  cases hwritable : rel.readOnly with
  | true =>
    rw [visitRelationships, if_neg (not_or.2 ⟨hkey, hself⟩)] at h
    have hfound : (storedRoot r i record).resource.relationship? rel.name = some rel := hrel
    simp only [hfound, htext, hwritable, Bool.false_eq_true, if_false, if_true] at h
    obtain ⟨_, _, hissue, h⟩ := bind_eq_ok h
    cases hissue
    rw [visitRelationships] at h
    cases h
    exact absurd hissues (List.append_ne_nil_of_right_ne_nil _ (List.cons_ne_nil _ _))
  | false =>
    rw [visitRelationships_one site (.existing i) mode (s := storedRoot r i record) hrel hone ⟨hkey, hself⟩
      hwritable htarget htext] at h
    rcases hraw with hobject | hnull
    · simp only [hobject, if_true] at h ⊢
      obtain ⟨_, _, hvisit, h⟩ := bind_eq_ok h
      rw [visitRelationships] at h
      cases h
      exact bind_of_ok hvisit
    · have hobject : raw.isObject = false := by
        cases raw with
        | null => rfl
        | _ => cases hnull
      simp only [hobject, hnull, Bool.false_eq_true, if_false, if_true] at h ⊢
      obtain ⟨_, _, hunlink, h⟩ := bind_eq_ok h
      rw [visitRelationships] at h
      cases h
      exact hunlink

/-- The entity at the top stays where it is, and its relationship is walked over. -/
theorem place_single_eq_ok {record : Record} {visited : Option Visited}
    (h : (do
      let reference ← site.place (storedRoot r i record) [(rel.name, raw)] .empty
      site.attach (storedRoot r i record) none [(rel.name, raw)] reference
      site.visitRelationships (storedRoot r i record) reference mode [(rel.name, raw)]
      pure (some ⟨reference, false⟩) : Walking (Option Visited)).run.run w = (.ok visited, after)) :
    (site.visitRelationships (storedRoot r i record) (.existing i) mode [(rel.name, raw)]).run.run w =
      (.ok (), after) := by
  rw [bind_of_ok (place_unchanged rfl _ w)] at h
  obtain ⟨_, _, hattach, h⟩ := bind_eq_ok h
  cases hattach
  obtain ⟨_, _, hrelationships, h⟩ := bind_eq_ok h
  cases h
  exact hrelationships

/-- An update whose document is about one relationship finds its entity, plans nothing for its fields, and
walks over the relationship. -/
theorem update_single_enters (hr : site.registry.schema.resource? r.name = some r)
    (hrel : r.relationship? rel.name = some rel) (hpinpoints : site.tables.Pinpoints r i)
    (htext : raw.isString = false)
    (h : (site.update r.name i (.obj [(rel.name, raw)]) mode).run.run {} = (.ok roots, after)) :
    rel.name ≠ DocumentOp.key ∧ ∃ record between, site.AtTop r i record between ∧
      (site.visitRelationships (storedRoot r i record) (.existing i) mode [(rel.name, raw)]).run.run between =
        (.ok (), after) := by
  obtain ⟨_, _, hrequire, h⟩ := bind_eq_ok h
  obtain ⟨hresource, rfl⟩ := liftM_eq_ok hrequire
  cases (Schema.require_eq_ok.1 hresource).symm.trans hr
  obtain ⟨visited, _, hvisit, h⟩ := bind_eq_ok h
  cases h
  rw [visitRoot, visit] at hvisit
  obtain ⟨opened, opening, hopened, hvisit⟩ := bind_eq_ok hvisit
  obtain ⟨hkey, record, htop, rfl⟩ := openObject_single hr hpinpoints htext hopened
  refine ⟨hkey, record, ?_⟩
  dsimp only at hvisit
  -- The only member of the document is a relationship, so no field is read.
  have hread : (site.readFields (storedRoot r i record) [(rel.name, raw)]).run.run opening =
      (.ok .empty, opening) := by
    unfold readFields
    rw [List.foldlM_cons]
    dsimp only
    rw [if_pos (.inr (.inr (by rw [storedRoot, hrel]; rfl)))]
    rfl
  unfold storedRoot at hread
  rw [bind_of_ok hread] at hvisit
  split at hvisit
  · obtain ⟨_, between, hrequired, hvisit⟩ := bind_eq_ok hvisit
    exact ⟨between, htop.asked (requireFields_asked hrequired), place_single_eq_ok hvisit⟩
  · exact ⟨opening, htop, place_single_eq_ok hvisit⟩

/-- An update whose document is about one relationship to one entity goes on to the relationship. -/
theorem update_single_eq_ok (hr : site.registry.schema.resource? r.name = some r)
    (hrel : r.relationship? rel.name = some rel) (htarget : site.registry.schema.target? rel = some target)
    (hone : rel.isMany = false) (hpinpoints : site.tables.Pinpoints r i)
    (hraw : raw.isObject = true ∨ raw.isNull = true)
    (h : (site.update r.name i (.obj [(rel.name, raw)]) mode).run.run {} = (.ok roots, after))
    (hissues : after.issues = []) :
    (rel.name = selfKey ∧ after.plan.commands = []) ∨ ∃ record between, site.AtTop r i record between ∧
      site.GoesOn target (topParent r rel i record) raw between after := by
  have htext : raw.isString = false := by
    cases raw with
    | str text => rcases hraw with hraw | hraw <;> cases hraw
    | _ => rfl
  obtain ⟨hkey, record, between, htop, hwalk⟩ := update_single_enters hr hrel hpinpoints htext h
  rcases visitRelationships_single hrel htarget hone hkey hraw hwalk hissues with ⟨hself, rfl⟩ | hgoes
  · exact .inl ⟨hself, htop.commands⟩
  · exact .inr ⟨record, between, htop, hgoes⟩

variable {members : List (String × Json)} {j : Identity} {childRow : Record}

/-- An update that says of a relationship to one entity that there is none detaches the members that the
caller sees. -/
theorem update_null_plan (site : WalkSite) (hr : site.registry.schema.resource? r.name = some r)
    (hrel : r.relationship? rel.name = some rel) (htarget : site.registry.schema.target? rel = some target)
    (hone : rel.isMany = false) (hpinpoints : site.tables.Pinpoints r i)
    (h : (site.update r.name i (.obj [(rel.name, .null)]) mode).run.run {} = (.ok roots, after))
    (hissues : after.issues = []) :
    (rel.name = selfKey ∧ after.plan.commands = []) ∨ rel.name ≠ selfKey ∧ ∃ record required,
      site.tables.Stores r i record ∧ site.registry.required site.ctx target = .ok required ∧
      after.plan.commands = (site.seen (topParent r rel i record) target i required).map fun k =>
        .unlink ⟨r.name, rel.name, .existing i, .existing k⟩ := by
  refine (update_single_eq_ok hr hrel htarget hone hpinpoints (.inr rfl) h hissues).imp id ?_
  rintro ⟨record, between, htop, hother, u, hunlink⟩
  have howns : site.Owns (topParent r rel i record) target i record :=
    ⟨hr, hrel, htarget, rfl, htop.stores.row⟩
  obtain ⟨required, hrequired, hextends⟩ := unlinkAbsent_extends rfl howns.resource_target
    htop.memberships hunlink
  refine ⟨hother, record, required, htop.stores, hrequired, ?_⟩
  rw [hextends.commands, htop.commands, List.nil_append, displacing, List.isEmpty_nil, Bool.not_true,
    Bool.and_false, if_neg Bool.false_ne_true, List.filter_map, List.map_map]
  simp only [List.not_mem_nil, not_false_eq_true, decide_true, Function.comp_def, List.filter_true]
  rfl

/-- An update that names the member of a relationship to one entity links it, unless it is a member. -/
theorem update_named_plan (site : WalkSite) (hr : site.registry.schema.resource? r.name = some r)
    (hrel : r.relationship? rel.name = some rel) (htarget : site.registry.schema.target? rel = some target)
    (hone : rel.isMany = false) (hpinpoints : site.tables.Pinpoints r i)
    (hpinpointsChild : site.tables.Pinpoints target j) (hchild : site.tables.Stores target j childRow)
    (hnames : target.Names members j)
    (h : (site.update r.name i (.obj [(rel.name, .obj members)]) mode).run.run {} = (.ok roots, after))
    (hissues : after.issues = []) :
    (rel.name = selfKey ∧ after.plan.commands = []) ∨ rel.name ≠ selfKey ∧ ∃ record,
      site.tables.Stores r i record ∧ ((j.key ∈ site.tables.memberKeys site.registry.schema r target record rel ∧
          after.plan.commands = []) ∨
        (j.key ∉ site.tables.memberKeys site.registry.schema r target record rel ∧
          ∃ required, site.registry.required site.ctx target = .ok required ∧
            after.plan.commands = replacing (topParent r rel i record) i j
              (site.seen (topParent r rel i record) target i required))) := by
  refine (update_single_eq_ok hr hrel htarget hone hpinpoints (.inl rfl) h hissues).imp id ?_
  rintro ⟨record, between, htop, hother, u, hgoes⟩
  have howns : site.Owns (topParent r rel i record) target i record :=
    ⟨hr, hrel, htarget, rfl, htop.stores.row⟩
  obtain ⟨visited, _, hvisit, hgoes⟩ := bind_eq_ok hgoes
  cases hgoes
  -- The named entity may be the one at the top, which is known.
  have hmet : ∀ k, firstOf? (target.name, j.key) between.known = some k →
      k = ⟨.existing j, childRow, false⟩ := by
    intro k hk
    rw [htop.known] at hk
    have hmem := mem_of_firstOf? hk
    rw [List.mem_singleton, Prod.mk.injEq, Prod.mk.injEq] at hmem
    obtain ⟨⟨hname, hkey⟩, rfl⟩ := hmem
    obtain rfl : target = r := Schema.eq_of_name howns.resource_target hr hname
    obtain rfl := hchild.eq_of_key htop.stores hkey
    rw [Option.some.inj (hchild.row.symm.trans htop.stores.row)]
  refine ⟨hother, record, htop.stores, ?_⟩
  refine (visit_named_extends howns hone hpinpointsChild hchild hnames hmet htop.memberships hvisit).imp ?_ ?_
  · rintro ⟨hin, hextends⟩
    refine ⟨hin, ?_⟩
    rw [hextends.commands, htop.commands]
    rfl
  · rintro ⟨hnot, required, hrequired, hextends⟩
    refine ⟨hnot, required, hrequired, ?_⟩
    rw [hextends.commands, htop.commands, List.nil_append]

end

end WalkSite

end NestedResources
