import NestedResources.Proofs.Write.Children
import NestedResources.Proofs.Write.Echo
import NestedResources.Proofs.Write.Joined
import NestedResources.Proofs.Write.Sparing

/-!
# Documents that are posted

A document that is posted to a relationship of an entity is walked as what an update says of it. Its own
entity is created or written to, then linked, and then its relationships are walked over. So the plan
begins with commands up to the link, or with none where the entity is a member, and all others spare the
membership (`WriteOp.update_posts`).
-/
namespace NestedResources

namespace Posting

/-- An object is posted to a relationship of an entity. -/
def ofDocument (r : Resource) (i : Identity) (rel : Relationship) (target : Resource)
    (members : List (String × Json)) : Posting :=
  ⟨r, i.key, rel, target, (target.identityIn? members).map Identity.key⟩

variable (m : Posting)

/-- An object asks for a membership, and for nothing that undoes it. -/
structure Upholds (s : Schema) (t : Tables) (record : Record) (members : List (String × Json)) : Prop where
  keeps : ¬DocumentOp.Removes members
  nodup : (members.map (·.1)).Nodup
  links : m.LinksCleanly
  spares : ∀ c ∈ clauses s m.target .top members, m.Spares c
  /-- A member is not linked anew. -/
  settled : ∀ key ∈ m.key?, key ∈ t.memberKeys s m.owner m.target record m.relationship →
    ∀ e ∈ members, ∀ f ∈ m.target.field? e.1, m.target.isIdentity f.name = false →
      f.column ∉ m.columns m.target.name .top
  /-- Whoever is displaced may be deleted, which clears references to them. -/
  requires : m.relationship.isMany = false → m.relationship.join.isForeignKey = false →
    m.relationship.cascade = .delete → m.owner.RequiresHeld s ∧ m.target.RequiresHeld s

/-- What is planned for the entity of an object before it is linked. -/
inductive Opens (t : Tables) (members : List (String × Json)) : EntityRef → List Command → Prop
  | new {values : Record} (hvalues : m.target.values? none members = some values) :
      Opens t members (.pending 0) [.create 0 m.target.name values]
  | stored {j : Identity} {row : Record} {updates : List Command} (hstores : t.Stores m.target j row)
      (hkey : m.key? = some j.key)
      (hupdates : ∀ c ∈ updates, ∃ values, c = .update m.target.name (.existing j) values) :
      Opens t members (.existing j) updates

/-- What is planned until the entity of an object is a member: nothing where it is one, or else a link, once
others are displaced. -/
inductive Reaches (s : Schema) (t : Tables) (p : Parent) (record : Record) (members : List (String × Json)) :
    EntityRef → List Command → Prop
  | member {j : Identity} {row : Record} (hstores : t.Stores m.target j row) (hkey : m.key? = some j.key)
      (hmember : j.key ∈ t.memberKeys s m.owner m.target record m.relationship) :
      Reaches s t p record members (.existing j) []
  | linked {child : EntityRef} {opening : List Command} {displaced : List EntityRef}
      (hopens : m.Opens t members child opening)
      (hdisplaced : displaced ≠ [] → m.relationship.isMany = false ∧ m.relationship.join.isForeignKey = false) :
      Reaches s t p record members child (opening ++
        displaced.map (fun x => .unlink (WalkSite.linkChange p x)) ++ [.link (WalkSite.linkChange p child)])

/-- A plan that reaches the membership and then spares it. -/
def Posts (s : Schema) (t : Tables) (p : Parent) (record : Record) (members : List (String × Json))
    (commands : List Command) : Prop :=
  ∃ child reached rest, commands = reached ++ rest ∧ m.Reaches s t p record members child reached ∧
    ∀ c ∈ rest, m.SparesCommand child s c

end Posting

namespace WalkSite

open Walking Posting

variable {site : WalkSite} {w after : Walk} {p : Parent} {target : Resource}

/-! ## The link -/

/-- Nothing is learnt of who is displaced. -/
theorem unlinkAbsent_known (htarget : site.registry.schema.resource? target.name = some target)
    {keep : List String} {u : Unit}
    (h : (site.unlinkAbsent p target keep).run.run w = (.ok u, after)) : after.known = w.known := by
  obtain ⟨found, between, hmembers, hloop⟩ := bind_eq_ok h
  obtain ⟨rfl, -, -⟩ := currentMembers_eq_ok htarget hmembers
  refine forM_induction (P := fun next => next.known = between.known) (fun k _ start next u hstart hround => ?_) rfl
    hloop
  rcases displace_cases hround with ⟨-, rfl⟩ | ⟨-, -, -, rfl⟩ | ⟨-, -, hunlink⟩
  · exact hstart
  · exact hstart
  · obtain ⟨-, rfl⟩ := planUnlink_eq_ok hunlink
    exact hstart

/-- Whoever is displaced is detached, unless their place is taken by a foreign key. -/
theorem exists_displaced (p : Parent) (key : String) (references : List EntityRef) :
    ∃ displaced : List EntityRef, displacing p [key] references =
        displaced.map (fun x => .unlink (linkChange p x)) ∧
      (displaced ≠ [] → p.relationship.join.isForeignKey = false) := by
  unfold displacing
  split
  · exact ⟨[], rfl, absurd rfl⟩
  · rename_i howned
    refine ⟨_, rfl, fun _ => ?_⟩
    simpa using howned

/-- An entity that is created is no member yet. -/
theorem isMember_pending (hnone : w.memberships = []) (slot : Nat) :
    (site.isMember p target (.pending slot)).run.run w = (.ok false, w) := by
  unfold isMember
  rw [bind_of_ok (get_run w), hnone]
  cases p.reference <;> rfl

/-- An entity is linked unless it is a member, and others are displaced first. -/
theorem link_posts {i : Identity} {record : Record} (howns : site.Owns p target i record)
    (hexact : site.tables.Exact site.registry.schema) (hnone : w.memberships = []) {k : Known} {explicit : Bool}
    {path : String} {value : Json} {u : Unit}
    (hstored : ∀ j, k.reference = .existing j → ∃ row, site.tables.Stores target j row)
    (h : (site.link p target k explicit path value).run.run w = (.ok u, after)) :
    after.known = w.known ∧
      ((∃ j, k.reference = .existing j ∧ j.key ∈ site.tables.memberKeys site.registry.schema p.resource target
          record p.relationship ∧ after.plan = w.plan) ∨
        ∃ displaced : List EntityRef,
          (displaced ≠ [] → p.relationship.isMany = false ∧ p.relationship.join.isForeignKey = false) ∧
          after.plan.commands = w.plan.commands ++ displaced.map (fun x => .unlink (linkChange p x)) ++
            [.link (linkChange p k.reference)]) := by
  rcases link_cases h with ⟨hin, found, rfl⟩ | ⟨-, vacated, hvacated, -, rfl⟩
  · -- Whoever is found to be a member is stored as one.
    cases hreference : k.reference with
    | pending slot =>
      rw [hreference, isMember_pending hnone] at hin
      cases hin
    | existing j =>
      obtain ⟨row, hstores⟩ := hstored j hreference
      obtain ⟨htypes, hfiled⟩ := hexact target howns.resource_target
      rw [hreference, howns.isMember_run htypes hfiled hstores, hasMember, hnone] at hin
      exact ⟨rfl, .inl ⟨j, rfl, of_decide_eq_true (Except.ok.inj (Prod.mk.inj hin).1), rfl⟩⟩
  · rcases hvacated with ⟨-, rfl⟩ | ⟨hone, hunlink⟩
    · refine ⟨rfl, .inr ⟨[], absurd rfl, ?_⟩⟩
      rw [List.map_nil, List.append_nil]
      rfl
    · obtain ⟨required, -, hextends⟩ := unlinkAbsent_extends howns.reference howns.resource_target hnone hunlink
      obtain ⟨displaced, hdisplaced, howned⟩ := exists_displaced p k.reference.key
        ((site.seen p target i required).map EntityRef.existing)
      have hknown : vacated.known = w.known := unlinkAbsent_known howns.resource_target hunlink
      refine ⟨hknown, .inr ⟨displaced, fun hany => ⟨hone, howned hany⟩, ?_⟩⟩
      rw [← hdisplaced, ← hextends.commands]
      rfl

/-! ## The entity of the document -/

/-- An entity that is known is written to or left as it is. -/
theorem place_known {s : Scope} {members : List (String × Json)} {values : Record} {k : Known}
    {reference : EntityRef} (hknown : s.known = some k)
    (h : (site.place s members values).run.run w = (.ok reference, after)) :
    reference = k.reference ∧ after.memberships = w.memberships ∧ ∃ updates,
      after.plan.commands = w.plan.commands ++ updates ∧
      (∀ c ∈ updates, c = .update s.resource.name k.reference values) ∧
      ∀ e ∈ after.known, e ∈ w.known ∨
        ∃ q, s.identity = some q ∧ e.1 = (s.resource.name, q.key) ∧ e.2.reference = k.reference := by
  cases placing_of_place h with
  | create hnew _ => cases hnew.symm.trans hknown
  | @update k' hold _ _ =>
    cases hold.symm.trans hknown
    refine ⟨rfl, rfl, [.update s.resource.name k.reference values], rfl,
      fun c hc => List.mem_singleton.1 hc, fun e he => ?_⟩
    refine (List.mem_append.1 he).symm.imp id fun hnoted => ?_
    obtain ⟨q, hq, rfl⟩ := Option.map_eq_some_iff.1 (Option.mem_toList.1 hnoted)
    exact ⟨q, hq, rfl, rfl⟩
  | @keep k' hold _ =>
    cases hold.symm.trans hknown
    exact ⟨rfl, rfl, [], (List.append_nil _).symm, fun c hc => (by cases hc), fun e he => .inl he⟩

section

variable {r : Resource} {rel : Relationship} {i : Identity} {record : Record} {members : List (String × Json)}

/-- The entity that a document names is found as it is stored, and whatever is known by then is stored. -/
theorem AtTop.finds (htop : site.AtTop r i record w) (hr : site.registry.schema.resource? r.name = some r)
    (htarget : site.registry.schema.resource? target.name = some target)
    (hexact : site.tables.Exact site.registry.schema) {k : Known}
    (h : site.Finds target (target.identityIn? members) w (some k) after) :
    ∃ j row, (target.identityIn? members).map Identity.key = some j.key ∧ site.tables.Stores target j row ∧
      k.reference = .existing j ∧ after.plan = w.plan ∧ after.memberships = w.memberships ∧
      ∀ e ∈ after.known, ∃ q : Identity, e.1.2 = q.key ∧ e.2.reference = .existing q := by
  have hmet : ∀ e ∈ w.known, ∃ q : Identity, e.1.2 = q.key ∧ e.2.reference = .existing q := by
    rw [htop.known]
    intro e he
    cases List.mem_singleton.1 he
    exact ⟨i, rfl, rfl⟩
  cases hgiven : target.identityIn? members with
  | none =>
    rw [hgiven] at h
    cases h.1
  | some j =>
    rw [hgiven] at h
    obtain ⟨htypes, hfiled⟩ := hexact target htarget
    cases hfirst : firstOf? (target.name, j.key) w.known with
    | some met =>
      cases (lookup_met hfirst).symm.trans h
      have hmem := mem_of_firstOf? hfirst
      rw [htop.known] at hmem
      obtain ⟨hname, rfl⟩ := Prod.mk.inj (List.mem_singleton.1 hmem)
      obtain ⟨hname, hkey⟩ := Prod.mk.inj hname
      obtain rfl := Schema.eq_of_name htarget hr hname
      exact ⟨i, record, congrArg some hkey, htop.stores, rfl, rfl, rfl, hmet⟩
    | none =>
      obtain ⟨hj, hlength⟩ := Resource.isExact_of_identityIn? htypes hgiven
      have hpinpoints := hfiled.pinpoints_of_isExact htypes hj hlength site.registry.schema
      rcases lookup_cases htarget hpinpoints hfirst h with ⟨row, hstores, hk, rfl⟩ | ⟨hk, -, -⟩
      · cases hk
        refine ⟨j, row, rfl, hstores, rfl, rfl, rfl, fun e he => ?_⟩
        rcases List.mem_cons.1 he with rfl | he
        · exact ⟨j, rfl, rfl⟩
        · exact hmet e he
      · cases hk

/-! ## Updates about one relationship -/

/-- What an update says of a relationship, where a document is posted to it. -/
def posted (rel : Relationship) (document : Json) : Json :=
  .obj [(rel.name, if rel.isMany then .arr [document] else document)]

/-- What is posted to a relationship to several entities is visited as its only item. -/
theorem update_item_visits (hr : site.registry.schema.resource? r.name = some r)
    (hrel : r.relationship? rel.name = some rel) (htarget : site.registry.schema.target? rel = some target)
    (hpinpoints : site.tables.Pinpoints r i) (hself : rel.name ≠ selfKey) (hmany : rel.isMany = true)
    {document : Json} {roots : List EntityRef}
    (h : (site.update r.name i (.obj [(rel.name, .arr [document])]) .patch).run.run {} = (.ok roots, after))
    (hclean : after.issues = []) :
    ∃ record between path visited, site.AtTop r i record between ∧
      (site.visit target path (.nested (topParent r rel i record)) .patch document).run.run between =
        (.ok visited, after) := by
  obtain ⟨hkey, record, between, htop, hwalk⟩ := update_single_enters hr hrel hpinpoints rfl h
  have hwalked : (storedRoot r i record).resource.walked? rel.name = some rel := by
    rw [Resource.walked?, if_neg (not_or.2 ⟨hkey, hself⟩)]
    exact hrel
  rcases items_of_visitRelationships hwalked hmany hwalk with
    ⟨refused, -, hissues, hrest⟩ | ⟨leads, mentioned, walked, hleads, hitems, hrest⟩
  · rw [visitRelationships] at hrest
    cases hrest
    exact absurd hclean hissues
  · rw [visitRelationships] at hrest
    cases hrest
    cases htarget.symm.trans hleads
    rw [visitItems] at hitems
    obtain ⟨visited, visiting, hvisit, h₁⟩ := bind_eq_ok hitems
    obtain ⟨others, _, hothers, h₂⟩ := bind_eq_ok h₁
    rw [visitItems] at hothers
    cases hothers
    obtain rfl : visiting = after := by
      split at h₂ <;> cases h₂ <;> rfl
    exact ⟨record, between, _, visited, htop, hvisit⟩

theorem Finds.plan {identity : Option Identity} {known : Option Known}
    (hr : site.registry.schema.resource? r.name = some r) (h : site.Finds r identity w known after) :
    after.plan = w.plan := by
  cases identity with
  | none => rw [h.2]
  | some i => cases looksUp_of_lookup hr h <;> rfl

/-- At the top of an update nothing is created. -/
theorem openObject_update_plan {opened : Opened} (hr : site.registry.schema.resource? r.name = some r)
    (h : (site.openObject r "" (.root (.update i)) members).run.run {} = (.ok opened, after)) :
    (∀ slot name values, .create slot name values ∉ after.plan.commands) ∧
      ∀ op identity known, opened = .entered op identity known → known.isSome = true := by
  obtain ⟨op, _, hop, h₁⟩ := bind_eq_ok h
  obtain ⟨-, rfl⟩ := liftM_eq_ok hop
  obtain ⟨identity, identified, hidentity, h₂⟩ := bind_eq_ok h₁
  have hidentified : identified.plan = {} := by
    unfold identityOf at hidentity
    dsimp only [Position.identity?] at hidentity
    split at hidentity <;> cases hidentity <;> rfl
  obtain ⟨known, found, hfinds, h₃⟩ := finds_of_identity h₂
  have hplan := (hfinds.plan hr).trans hidentified
  have hnothing : ∀ slot name values, .create slot name values ∉ found.plan.commands := by
    rw [hplan]
    exact fun _ _ _ hc => by cases hc
  cases known with
  | none =>
    dsimp only at h₃
    rw [if_pos (.inr (.inr rfl))] at h₃
    split at h₃ <;> cases h₃
  | some k =>
    dsimp only at h₃
    split at h₃
    · obtain ⟨_, removed, hdelete, h₄⟩ := bind_eq_ok h₃
      cases h₄
      obtain ⟨_, _, hpermit, h₅⟩ := bind_eq_ok hdelete
      obtain ⟨-, rfl⟩ := permit_eq_ok hpermit
      cases h₅
      refine ⟨fun slot name values hc => ?_, fun _ _ _ hopened => by cases hopened⟩
      rcases List.mem_append.1 hc with hc | hc
      · exact hnothing slot name values hc
      · cases List.mem_singleton.1 hc
    · cases h₃
      refine ⟨hnothing, fun _ _ _ hopened => ?_⟩
      cases hopened
      rfl

/-- A text for a relationship is a link, which is left alone. -/
theorem update_text_plan (hr : site.registry.schema.resource? r.name = some r)
    (hrel : r.relationship? rel.name = some rel) {text : String} {roots : List EntityRef}
    (h : (site.update r.name i (.obj [(rel.name, .str text)]) .patch).run.run {} = (.ok roots, after)) :
    ∀ slot name values, .create slot name values ∉ after.plan.commands := by
  obtain ⟨_, _, hrequire, h⟩ := bind_eq_ok h
  obtain ⟨hresource, rfl⟩ := liftM_eq_ok hrequire
  cases (Schema.require_eq_ok.1 hresource).symm.trans hr
  obtain ⟨visited, _, hvisit, h⟩ := bind_eq_ok h
  cases h
  rw [visitRoot, visit] at hvisit
  obtain ⟨opened, opening, hopen, h₁⟩ := bind_eq_ok hvisit
  obtain ⟨hnothing, hknown⟩ := openObject_update_plan hr hopen
  split at h₁
  · cases h₁
    exact hnothing
  · rename_i op identity known
    obtain ⟨k, rfl⟩ := Option.isSome_iff_exists.1 (hknown op identity known rfl)
    have hread : ∀ {s : Scope}, s.resource = r → (site.readFields s [(rel.name, .str text)]).run.run opening =
        (.ok .empty, opening) := by
      rintro s rfl
      unfold readFields
      rw [List.foldlM_cons]
      dsimp only
      rw [if_pos (.inr (.inr (by rw [hrel]; rfl)))]
      rfl
    rw [bind_of_ok (hread rfl)] at h₁
    obtain ⟨reference, placed, hplace, h₂⟩ := bind_eq_ok h₁
    rw [place_unchanged rfl] at hplace
    cases hplace
    obtain ⟨_, _, hattach, h₃⟩ := bind_eq_ok h₂
    cases hattach
    obtain ⟨_, walked, hwalk, h₄⟩ := bind_eq_ok h₃
    cases h₄
    obtain rfl := eq_of_visitRelationships (fun m hm _ _ => by cases List.mem_singleton.1 hm; rfl) hwalk
    exact hnothing

/-- What is neither an object nor null nor a link is an issue for a relationship to one entity. -/
theorem update_single_shape (hr : site.registry.schema.resource? r.name = some r)
    (hrel : r.relationship? rel.name = some rel) (htarget : site.registry.schema.target? rel = some target)
    (hpinpoints : site.tables.Pinpoints r i) (hself : rel.name ≠ selfKey) (hone : rel.isMany = false) {raw : Json}
    (hraw : raw.isString = false ∧ raw.isObject = false ∧ raw.isNull = false) {roots : List EntityRef}
    (h : (site.update r.name i (.obj [(rel.name, raw)]) .patch).run.run {} = (.ok roots, after)) :
    after.issues ≠ [] := by
  obtain ⟨htext, hobject, hnull⟩ := hraw
  obtain ⟨hkey, record, between, -, hwalk⟩ := update_single_enters hr hrel hpinpoints htext h
  have hissue : ∃ path d, (do
      issue path d
      site.visitRelationships (storedRoot r i record) (.existing i) .patch [] : Walking Unit).run.run between =
        (.ok (), after) := by
    cases hwritable : rel.readOnly with
    | true =>
      rw [visitRelationships, if_neg (not_or.2 ⟨hkey, hself⟩)] at hwalk
      have hfound : (storedRoot r i record).resource.relationship? rel.name = some rel := hrel
      simp only [hfound, htext, hwritable, Bool.false_eq_true, if_false, if_true] at hwalk
      exact ⟨_, _, hwalk⟩
    | false =>
      rw [visitRelationships_one site (.existing i) .patch (s := storedRoot r i record) hrel hone ⟨hkey, hself⟩
        hwritable htarget htext] at hwalk
      simp only [hobject, hnull, Bool.false_eq_true, if_false] at hwalk
      exact ⟨_, _, hwalk⟩
  obtain ⟨path, d, hissue⟩ := hissue
  obtain ⟨_, _, hnoted, hrest⟩ := bind_eq_ok hissue
  cases hnoted
  rw [visitRelationships] at hrest
  cases hrest
  exact List.append_ne_nil_of_right_ne_nil _ (List.cons_ne_nil _ _)

/-- What is no object brings nobody along. -/
theorem posted_creates_nothing (hr : site.registry.schema.resource? r.name = some r)
    (hrel : r.relationship? rel.name = some rel) (htarget : site.registry.schema.target? rel = some target)
    (hpinpoints : site.tables.Pinpoints r i) (hself : rel.name ≠ selfKey) {document : Json}
    (hdocument : ∀ members, document ≠ .obj members) {roots : List EntityRef}
    (h : (site.update r.name i (posted rel document) .patch).run.run {} = (.ok roots, after))
    (hclean : after.issues = []) : ∀ slot name values, .create slot name values ∉ after.plan.commands := by
  unfold posted at h
  cases hmany : rel.isMany with
  | true =>
    rw [hmany, if_pos rfl] at h
    obtain ⟨record, between, path, visited, -, hvisit⟩ := update_item_visits hr hrel htarget hpinpoints hself hmany
      h hclean
    obtain ⟨members, hmembers⟩ := exists_members_of_visit hvisit hclean
    exact absurd hmembers (hdocument members)
  | false =>
    rw [hmany, if_neg Bool.false_ne_true] at h
    cases document with
    | obj members => exact absurd rfl (hdocument members)
    | str text => exact update_text_plan hr hrel h
    | null =>
      rcases update_null_plan site hr hrel htarget hmany hpinpoints h hclean with
        ⟨hname, -⟩ | ⟨-, stored, required, -, -, hcommands⟩
      · exact absurd hname hself
      · rw [hcommands]
        intro slot name values hc
        obtain ⟨k, -, hk⟩ := List.mem_map.1 hc
        cases hk
    | bool _ | num _ | arr _ =>
      exact absurd hclean (update_single_shape hr hrel htarget hpinpoints hself hmany ⟨rfl, rfl, rfl⟩ h)
/-! ## Posting -/

/-- The entity of an object that is posted. -/
def postedScope (target : Resource) (path : String) (p : Parent) (members : List (String × Json))
    (known : Option Known) : Scope :=
  ⟨target, path, .nested p, target.identityIn? members, known⟩

section

variable (hr : site.registry.schema.resource? r.name = some r) (hrel : r.relationship? rel.name = some rel)
  (htarget : site.registry.schema.target? rel = some target) (hexact : site.tables.Exact site.registry.schema)
  (hupholds : (Posting.ofDocument r i rel target members).Upholds site.registry.schema site.tables record members)
  (htop : site.AtTop r i record w)

include hr htarget hexact in
theorem stands_of_exact {child : EntityRef}
    (hchild : ∀ j, child = .existing j → (target.identityIn? members).map Identity.key = some j.key) :
    (Posting.ofDocument r i rel target members).Stands child site where
  owner := hr
  target := Schema.resource?_of_target? htarget
  ownerTypes := (hexact r hr).1
  targetTypes := (hexact target (Schema.resource?_of_target? htarget)).1
  ownerFiled := (hexact r hr).2
  targetFiled := (hexact target (Schema.resource?_of_target? htarget)).2
  child := hchild

include hr hrel htarget hexact hupholds htop

/-- An object of a new entity is planned as its creation and its link, and what follows spares the
membership. -/
theorem created_posts {path : String} {op : Option DocumentOp} {visited : Option Visited}
    (h : (do
      let values ← site.readFields (postedScope target path (topParent r rel i record) members none) members
      if (postedScope target path (topParent r rel i record) members none).creating || WriteMode.patch = .replace
        then requireFields (postedScope target path (topParent r rel i record) members none) members
      let reference ← site.place (postedScope target path (topParent r rel i record) members none) members values
      site.attach (postedScope target path (topParent r rel i record) members none) op members reference
      site.visitRelationships (postedScope target path (topParent r rel i record) members none) reference .patch
        members
      pure (some ⟨reference, false⟩) : Walking (Option Visited)).run.run w = (.ok visited, after))
    (hclean : after.issues = []) :
    (Posting.ofDocument r i rel target members).Posts site.registry.schema site.tables (topParent r rel i record)
      record members after.plan.commands := by
  have hleads := Schema.resource?_of_target? htarget
  have howns : site.Owns (topParent r rel i record) target i record := ⟨hr, hrel, htarget, rfl, htop.stores.row⟩
  obtain ⟨values, founded, attached, hfounds, hattach, hwalk, -⟩ := founds_of_entered hleads rfl h
  have hslot : w.plan.pending = 0 := by rw [Plan.pending, htop.commands]; rfl
  have hcommands := hfounds.commands
  rw [htop.commands, hslot] at hcommands
  rw [hslot] at hattach hwalk
  have hknows := hfounds.knows
  rw [hslot] at hknows
  -- The walk has no issue, so that neither had the entity when it was read.
  have hsound := hfounds.steps.sound htop.sound
  have hgrown := hfounds.steps.grows.1
  have hposition : site.Admits founded.plan.commands target (.nested (topParent r rel i record)) :=
    ⟨⟨hr, hrel, (htop.knows hr).mono hgrown⟩, htarget⟩
  have hattached := attach_steps hsound hposition hknows hattach
  have hwalked := visitRelationships_steps (hattached.sound hsound) hleads (hknows.mono hattached.grows.1)
    members hwalk
  have hvalues := hfounds.read (List.prefix_nil.1 (hclean ▸ Steps.extends (hattached.trans hwalked) |>.2))
  have hs : (Posting.ofDocument r i rel target members).Stands (.pending 0) site :=
    stands_of_exact hr htarget hexact fun j hj => by cases hj
  obtain ⟨hknown, ⟨j, hj, -⟩ | ⟨displaced, hdisplaced, hlinked⟩⟩ := link_posts howns hexact
    (hfounds.memberships.trans htop.memberships) (fun j hj => by cases hj) hattach
  · cases hj
  · rw [hcommands, List.nil_append] at hlinked
    -- What is known by now goes by its own key, or is the new entity, which goes by the key of the document.
    have hsees : (Posting.ofDocument r i rel target members).Sees (.pending 0) attached := by
      refine ⟨fun e he => ?_, fun n hn => ?_⟩
      · rw [hknown, hfounds.known, htop.known, hslot] at he
        rcases List.mem_append.1 he with he | he
        · obtain ⟨q, hq, rfl⟩ := Option.map_eq_some_iff.1 (Option.mem_toList.1 he)
          intro column hcolumn
          rw [Posting.columns, List.mem_append, List.mem_ite_nil_right, List.mem_ite_nil_right]
          rcases mem_columnsAt.1 hcolumn with ⟨⟨-, htag⟩, -⟩ | ⟨⟨hname, -⟩, hin⟩
          · cases htag
          · exact .inr ⟨⟨hname, congrArg (Option.map Identity.key) hq⟩, hin⟩
        · cases List.mem_singleton.1 he
          exact covers_existing hs r.name i
      · cases hn
        refine ⟨target.name, values, ?_⟩
        rw [hlinked]
        exact List.mem_cons_self
    obtain ⟨rest, hrest, hspares⟩ := (visitRelationships_goes hs hsees hleads (covers_top hs) members
      hupholds.spares hwalk).commands
    refine ⟨.pending 0, _, rest, ?_, .linked (.new hvalues) hdisplaced, hspares⟩
    rw [hrest, hlinked]
    rfl

/-- An object that names a stored entity is planned as what it writes and its link, and what follows spares the
membership. So does what it writes where the entity is a member. -/
theorem stored_posts {path : String} {op : Option DocumentOp} {k : Known} {found : Walk}
    {visited : Option Visited} (hfinds : site.Finds target (target.identityIn? members) w (some k) found)
    (h : (do
      let values ← site.readFields (postedScope target path (topParent r rel i record) members (some k)) members
      if (postedScope target path (topParent r rel i record) members (some k)).creating ||
          WriteMode.patch = .replace
        then requireFields (postedScope target path (topParent r rel i record) members (some k)) members
      let reference ← site.place (postedScope target path (topParent r rel i record) members (some k)) members
        values
      site.attach (postedScope target path (topParent r rel i record) members (some k)) op members reference
      site.visitRelationships (postedScope target path (topParent r rel i record) members (some k)) reference
        .patch members
      pure (some ⟨reference, false⟩) : Walking (Option Visited)).run.run found = (.ok visited, after)) :
    (Posting.ofDocument r i rel target members).Posts site.registry.schema site.tables (topParent r rel i record)
      record members after.plan.commands := by
  have hleads := Schema.resource?_of_target? htarget
  have howns : site.Owns (topParent r rel i record) target i record := ⟨hr, hrel, htarget, rfl, htop.stores.row⟩
  obtain ⟨j, row, hkey, hstores, hreference, hplan, hmemberships, hmet⟩ := htop.finds hr hleads hexact hfinds
  have hs : (Posting.ofDocument r i rel target members).Stands (.existing j) site :=
    stands_of_exact hr htarget hexact fun j' hj => by cases hj; exact hkey
  obtain ⟨values, read, hread, h₁⟩ := bind_eq_ok h
  obtain ⟨qs, hasked, -⟩ := readFields_eq_ok hread
  obtain ⟨-, issues, rfl⟩ := hasked
  have hpatch : ((postedScope target path (topParent r rel i record) members (some k)).creating ||
      decide (WriteMode.patch = .replace)) = false := rfl
  rw [hpatch, if_neg Bool.false_ne_true] at h₁
  obtain ⟨reference, placed, hplace, h₂⟩ := bind_eq_ok h₁
  obtain ⟨_, attached, hattach, h₃⟩ := bind_eq_ok h₂
  obtain ⟨_, _, hwalk, h₄⟩ := bind_eq_ok h₃
  cases h₄
  obtain ⟨rfl, hsame, updates, hcommands, hupdates, hnoted⟩ := place_known rfl hplace
  rw [hreference] at hattach hwalk hupdates hnoted
  replace hcommands : placed.plan.commands = updates := by
    rw [hcommands, hplan, htop.commands, List.nil_append]
  obtain ⟨hknown, hlinks⟩ := link_posts howns hexact ((hsame.trans hmemberships).trans htop.memberships)
    (fun j' hj => by cases hj; exact ⟨row, hstores⟩) hattach
  have hsees : (Posting.ofDocument r i rel target members).Sees (.existing j) attached := by
    refine ⟨fun e he => ?_, fun n hn => by cases hn⟩
    rw [hknown] at he
    rcases hnoted e he with he | ⟨q, hq, hname, href⟩
    · obtain ⟨q, hq, href⟩ := hmet e he
      rw [hq, href]
      exact covers_existing hs e.1.1 q
    · rw [hname, href]
      have hsame : q.key = j.key := Option.some.inj ((congrArg (Option.map Identity.key) hq).symm.trans hkey)
      rw [hsame]
      exact covers_existing hs target.name j
  obtain ⟨rest, hrest, hspares⟩ := (visitRelationships_goes hs hsees hleads (covers_top hs) members
    hupholds.spares hwalk).commands
  rcases hlinks with ⟨j', hj, hmember, hidle⟩ | ⟨displaced, hdisplaced, hlinked⟩
  · cases hj
    refine ⟨.existing j, [], updates ++ rest, ?_, .member hstores hkey hmember, fun c hc => ?_⟩
    · rw [hrest, hidle, hcommands]
      rfl
    · rcases List.mem_append.1 hc with hc | hc
      · cases hupdates c hc
        intro column hcolumn
        cases hv : values.get? column with
        | none => rfl
        | some v =>
          obtain ⟨e, he, f, hf, rfl, hidentity⟩ := exists_field_of_readFields hread hv
          exact absurd (covers_top hs _ hcolumn) (hupholds.settled j.key hkey hmember e he f hf (hidentity rfl))
      · exact hspares c hc
  · refine ⟨.existing j, _, rest, ?_, .linked (.stored hstores hkey fun c hc => ⟨values, hupdates c hc⟩)
      hdisplaced, hspares⟩
    rw [hrest, hlinked, hcommands]

/-- An object that does not detach its entity is planned as what makes it a member, and what follows spares the
membership. -/
theorem visit_posts {path : String} {visited : Option Visited}
    (h : (site.visit target path (.nested (topParent r rel i record)) .patch (.obj members)).run.run w =
      (.ok visited, after)) (hclean : after.issues = []) :
    (Posting.ofDocument r i rel target members).Posts site.registry.schema site.tables (topParent r rel i record)
      record members after.plan.commands := by
  rw [visit] at h
  obtain ⟨opened, start, hopen, h₁⟩ := bind_eq_ok h
  obtain ⟨op, known, found, hread, hfinds, ⟨rfl, rfl⟩ | ⟨k, u, rfl, rfl, -, -⟩⟩ := openObject_nested hopen
  · cases known with
    | none =>
      obtain rfl := hfinds.eq_of_none (Schema.resource?_of_target? htarget)
      exact created_posts hr hrel htarget hexact hupholds htop h₁ hclean
    | some k => exact stored_posts hr hrel htarget hexact hupholds htop hfinds h₁
  · exact absurd (DocumentOp.removes_of_ofMembers? hread) hupholds.keeps

omit htop

/-- An update that posts an object to a relationship plans what makes its entity a member, and what follows
spares the membership. -/
theorem update_posts (hself : rel.name ≠ selfKey) (hstores : site.tables.Stores r i record)
    {roots : List EntityRef}
    (h : (site.update r.name i (posted rel (.obj members)) .patch).run.run {} = (.ok roots, after))
    (hclean : after.issues = []) :
    (Posting.ofDocument r i rel target members).Posts site.registry.schema site.tables (topParent r rel i record)
      record members after.plan.commands := by
  obtain ⟨htypes, hfiled⟩ := hexact r hr
  have hpinpoints := hfiled.pinpoints htypes hstores site.registry.schema
  unfold posted at h
  cases hmany : rel.isMany with
  | true =>
    rw [hmany, if_pos rfl] at h
    obtain ⟨stored, between, path, visited, htop, hvisit⟩ := update_item_visits hr hrel htarget hpinpoints hself hmany
      h hclean
    obtain rfl : stored = record := Option.some.inj (htop.stores.row.symm.trans hstores.row)
    exact visit_posts hr hrel htarget hexact hupholds htop hvisit hclean
  | false =>
    rw [hmany, if_neg Bool.false_ne_true] at h
    obtain ⟨hkey, stored, between, htop, hwalk⟩ := update_single_enters hr hrel hpinpoints rfl h
    obtain rfl : stored = record := Option.some.inj (htop.stores.row.symm.trans hstores.row)
    rcases visitRelationships_single hrel htarget hmany hkey (.inl rfl) hwalk hclean with
      ⟨hname, -⟩ | ⟨-, u, hvisit⟩
    · exact absurd hname hself
    · obtain ⟨visited, walked, hvisit, h₁⟩ := bind_eq_ok hvisit
      cases h₁
      exact visit_posts hr hrel htarget hexact hupholds htop hvisit hclean

end

end

end WalkSite

end NestedResources
