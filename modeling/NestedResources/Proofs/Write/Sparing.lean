import NestedResources.Proofs.Store.Edits
import NestedResources.Proofs.Write.Clauses
import NestedResources.Proofs.Write.Single

/-!
# Plans that spare a membership

What a document says below its own entity is planned after that entity has been linked. If every clause
spares the membership, then so does every command that is planned for it, at any depth
(`WalkSite.visitRelationships_goes`): the walk tells the entities that it names apart by their keys, and
refers to those that it brings along by slots of their own.
-/
namespace NestedResources

/-- What tells the entities of references apart: the keys of stored ones, and the slots of new ones. -/
def EntityRef.tag : EntityRef → String ⊕ Nat
  | .existing i => .inl i.key
  | .pending slot => .inr slot

@[simp] theorem EntityRef.tag_existing (i : Identity) : (existing i).tag = .inl i.key := rfl

@[simp] theorem EntityRef.tag_pending (slot : Nat) : (pending slot).tag = .inr slot := rfl

theorem Plan.pending_le_push (p : Plan) (c : Command) : p.pending ≤ (p.push c).pending := by
  rw [pending, pending, push, List.foldl_append]
  cases c with
  | create slot name values => exact Nat.le_max_left _ _
  | _ => exact Nat.le_refl _

/-- The next slot is behind all that are taken. -/
theorem Plan.lt_pending {commands : List Command} {slot : Nat} {name : String} {values : Record}
    (h : .create slot name values ∈ commands) : slot < (Plan.mk commands).pending := by
  induction commands using List.reverseRecOn with
  | nil => cases h
  | append_singleton commands c ih =>
    rcases List.mem_append.1 h with h | h
    · exact Nat.lt_of_lt_of_le (ih h) (pending_le_push ⟨commands⟩ c)
    · cases List.mem_singleton.1 h
      rw [pending, List.foldl_append]
      exact Nat.lt_of_lt_of_le (Nat.lt_succ_self slot) (Nat.le_max_right _ _)

namespace Posting

variable (m : Posting) (child : EntityRef)

/-- The columns that the membership rests on in the row of a reference, where `child` is the posted
entity. -/
def columnsAt (resource : String) (ref : EntityRef) : List String :=
  (if resource = m.owner.name ∧ ref.tag = .inl m.ownerKey then m.ownerColumns else []) ++
    if resource = m.target.name ∧ ref.tag = child.tag then m.memberColumns else []

/-- What a document tells of an entity covers the reference to it. -/
def Covers (resource : String) (naming : Naming) (ref : EntityRef) : Prop :=
  ∀ column ∈ m.columnsAt child resource ref, column ∈ m.columns resource naming

/-- A change of a membership by a foreign key that the membership does not rest on. -/
def SparesKeeper (c : LinkChange) (owner : Resource) (rel : Relationship) : Prop :=
  ∀ k, rel.foreignKey? owner = some k → ∀ column ∈ k.columns, column ∉ m.columnsAt child k.holder (c.keeper rel)

/-- A command that leaves what the membership rests on as it is. -/
def SparesCommand (s : Schema) : Command → Prop
  | .create _ _ _ => True
  | .update resource ref values => ∀ column ∈ m.columnsAt child resource ref, values.get? column = none
  | .delete _ _ => False
  | .link c => ∀ owner rel, c.Through s owner rel → m.SparesKeeper child c owner rel
  | .unlink c => ∀ owner rel, c.Through s owner rel → rel.cascade = .detach ∧
      (∀ table ∈ rel.join.table?, table ∉ m.relationship.join.table?) ∧ m.SparesKeeper child c owner rel

/-- The ends of a membership, in tables that hold their rows under exact identities of their own. -/
structure Stands (site : WalkSite) : Prop where
  owner : site.registry.schema.resource? m.owner.name = some m.owner
  target : site.registry.schema.resource? m.target.name = some m.target
  ownerTypes : ∀ f ∈ m.owner.identityFields, f.type.isExact = true
  targetTypes : ∀ f ∈ m.target.identityFields, f.type.isExact = true
  ownerFiled : site.tables.FiledExactly m.owner
  targetFiled : site.tables.FiledExactly m.target
  child : ∀ j, child = .existing j → m.key? = some j.key

/-- A walk whose references are covered by the names that it knows them by. -/
structure Sees (w : Walk) : Prop where
  known : ∀ e ∈ w.known, m.Covers child e.1.1 (.named e.1.2) e.2.reference
  slot : ∀ n, child = .pending n → ∃ name values, .create n name values ∈ w.plan.commands

/-- A stretch of a walk whose commands spare the membership. -/
structure Goes (s : Schema) (w after : Walk) : Prop where
  commands : ∃ cs, after.plan.commands = w.plan.commands ++ cs ∧ ∀ c ∈ cs, m.SparesCommand child s c
  sees : m.Sees child after

variable {m child} {site : WalkSite} {w between after : Walk} {s : Schema}

theorem Goes.refl (hw : m.Sees child w) : m.Goes child s w w :=
  ⟨⟨[], (List.append_nil _).symm, fun _ h => (by cases h)⟩, hw⟩

theorem Goes.trans (h : m.Goes child s w between) (k : m.Goes child s between after) :
    m.Goes child s w after := by
  obtain ⟨cs, hcs, hspares⟩ := h.commands
  obtain ⟨more, hmore, hothers⟩ := k.commands
  refine ⟨⟨cs ++ more, by rw [hmore, hcs, List.append_assoc], fun c hc => ?_⟩, k.sees⟩
  exact (List.mem_append.1 hc).elim (hspares c) (hothers c)

/-- What is learnt is covered by the names that it goes by. -/
theorem Sees.grows (hw : m.Sees child w) (hcommands : ∀ c ∈ w.plan.commands, c ∈ after.plan.commands)
    (hknown : ∀ e ∈ after.known, e ∈ w.known ∨ m.Covers child e.1.1 (.named e.1.2) e.2.reference) :
    m.Sees child after := by
  refine ⟨fun e he => (hknown e he).elim (hw.known e) id, fun n hn => ?_⟩
  obtain ⟨name, values, hmem⟩ := hw.slot n hn
  exact ⟨name, values, hcommands _ hmem⟩

theorem Sees.goes (hw : m.Sees child w) (cs : List Command)
    (hcommands : after.plan.commands = w.plan.commands ++ cs) (hspares : ∀ c ∈ cs, m.SparesCommand child s c)
    (hknown : ∀ e ∈ after.known, e ∈ w.known ∨ m.Covers child e.1.1 (.named e.1.2) e.2.reference) :
    m.Goes child s w after :=
  ⟨⟨cs, hcommands, hspares⟩, hw.grows (fun _ hc => hcommands ▸ List.mem_append_left cs hc) hknown⟩

theorem Sees.idle (hw : m.Sees child w) (hcommands : after.plan.commands = w.plan.commands)
    (hknown : after.known = w.known) : m.Goes child s w after :=
  hw.goes [] (by rw [hcommands, List.append_nil]) (fun _ h => (by cases h)) fun e he => .inl (hknown ▸ he)

theorem Sees.asked {qs : List Question} (hw : m.Sees child w) (h : site.Asked qs w after) :
    m.Goes child s w after := by
  obtain ⟨-, found, rfl⟩ := h
  exact hw.idle rfl rfl

/-! ## Names and references -/

theorem mem_columnsAt {resource column : String} {ref : EntityRef} :
    column ∈ m.columnsAt child resource ref ↔
      ((resource = m.owner.name ∧ ref.tag = .inl m.ownerKey) ∧ column ∈ m.ownerColumns) ∨
        (resource = m.target.name ∧ ref.tag = child.tag) ∧ column ∈ m.memberColumns := by
  rw [columnsAt, List.mem_append, List.mem_ite_nil_right, List.mem_ite_nil_right]

/-- The key of the posted entity is known where it is stored. -/
theorem Stands.key?_of_tag (hs : m.Stands child site) {key : String} (h : child.tag = .inl key) :
    m.key? = some key := by
  cases child with
  | existing j => rw [hs.child j rfl, Sum.inl.inj h]
  | pending slot => cases h

/-- A stored entity is covered by its own key. -/
theorem covers_existing (hs : m.Stands child site) (resource : String) (j : Identity) :
    m.Covers child resource (.named j.key) (.existing j) := by
  intro column hcolumn
  rw [columns, List.mem_append, List.mem_ite_nil_right, List.mem_ite_nil_right]
  refine (mem_columnsAt.1 hcolumn).imp (fun h => ?_) fun h => ?_
  · exact ⟨⟨h.1.1, Sum.inl.inj h.1.2⟩, h.2⟩
  · exact ⟨⟨h.1.1, hs.key?_of_tag h.1.2.symm⟩, h.2⟩

/-- The posted entity is covered by what is known of it. -/
theorem covers_top (hs : m.Stands child site) : m.Covers child m.target.name .top child := by
  intro column hcolumn
  rw [columns, List.mem_append, List.mem_ite_nil_right]
  refine (mem_columnsAt.1 hcolumn).symm.imp And.right fun h => ?_
  exact ⟨⟨h.1.1, hs.key?_of_tag h.1.2⟩, h.2⟩

/-- The membership rests on nothing in the rows of other new entities. -/
theorem Sees.covers_fresh (hw : m.Sees child w) (resource : String) (naming : Naming) :
    m.Covers child resource naming (.pending w.plan.pending) := by
  intro column hcolumn
  rcases mem_columnsAt.1 hcolumn with ⟨⟨-, htag⟩, -⟩ | ⟨⟨-, htag⟩, -⟩
  · cases htag
  · cases child with
    | existing j => cases htag
    | pending slot =>
      obtain ⟨name, values, hmem⟩ := hw.slot slot rfl
      exact absurd (Plan.lt_pending hmem) (Sum.inr.inj htag ▸ Nat.lt_irrefl _)

/-- The columns that the membership rests on in a row are among those in any row. -/
theorem mem_anyColumns {resource column : String} {ref : EntityRef}
    (h : column ∈ m.columnsAt child resource ref) : column ∈ m.anyColumns resource := by
  rw [anyColumns, List.mem_append, List.mem_ite_nil_right, List.mem_ite_nil_right]
  exact (mem_columnsAt.1 h).imp (fun h => ⟨h.1.1, h.2⟩) fun h => ⟨h.1.1, h.2⟩

end Posting

namespace WalkSite

open Walking Posting

variable {m : Posting} {child : EntityRef} {site : WalkSite} {w after : Walk} {r : Resource}
  {members : List (String × Json)}

theorem issue_goes (hw : m.Sees child w) {path : String} {d : Defect} {u : Unit} {s : Schema}
    (h : (issue path d).run.run w = (.ok u, after)) : m.Goes child s w after := by
  cases h
  exact hw.idle rfl rfl

/-! ## Looking up -/

/-- What is found for an object is covered by what it tells of its entity. -/
theorem lookup_goes (hs : m.Stands child site) (hr : site.registry.schema.resource? r.name = some r)
    (hw : m.Sees child w) {i : Identity} (hi : r.identityIn? members = some i) {found : Option Known}
    (h : (site.lookup r i).run.run w = (.ok found, after)) :
    m.Goes child site.registry.schema w after ∧
      ∀ k, found = some k → m.Covers child r.name (.named i.key) k.reference := by
  cases looksUp_of_lookup hr h with
  | @met k hmet =>
    refine ⟨.refl hw, fun k' hk' => ?_⟩
    cases hk'
    exact hw.known _ (mem_of_firstOf? hmet)
  | @row required record _ _ hmem hidentity _ =>
    have hcovers : m.Covers child r.name (.named i.key) (.existing ((r.identityOf? record).getD i)) := by
      -- Only rows of the two ends matter, and these have the very identity that was asked for.
      have hexactly : ∀ q : Resource, site.registry.schema.resource? q.name = some q →
          (∀ f ∈ q.identityFields, f.type.isExact = true) → site.tables.FiledExactly q → r.name = q.name →
          (r.identityOf? record).getD i = i := by
        intro q hq htypes hfiled hname
        obtain rfl : r = q := Schema.eq_of_name hr hq hname
        obtain ⟨key, hkey⟩ := Tables.mem_rowsOf.1 hmem
        obtain ⟨j, hj, rfl, hjexact⟩ := hfiled key record hkey
        obtain ⟨hexact, hlength⟩ := Resource.isExact_of_identityIn? htypes hi
        obtain rfl := (Predicate.passes_identity_iff htypes hj hjexact hexact hlength).1 hidentity
        rw [hj, Option.getD_some]
      intro column hcolumn
      have hsame : (r.identityOf? record).getD i = i := by
        rcases mem_columnsAt.1 hcolumn with ⟨⟨hname, -⟩, -⟩ | ⟨⟨hname, -⟩, -⟩
        · exact hexactly m.owner hs.owner hs.ownerTypes hs.ownerFiled hname
        · exact hexactly m.target hs.target hs.targetTypes hs.targetFiled hname
      rw [hsame] at hcolumn
      exact covers_existing hs r.name i column hcolumn
    refine ⟨hw.goes [] (List.append_nil _).symm (fun _ h => (by cases h)) fun e he => ?_, fun k hk => ?_⟩
    · exact (List.mem_cons.1 he).symm.imp id (by rintro rfl; exact hcovers)
    · cases hk
      exact hcovers
  | missing _ => exact ⟨.refl hw, fun k hk => by cases hk⟩

/-! ## Memberships below -/

/-- A place in a document where a clause speaks of a relationship. -/
structure Within (site : WalkSite) (m : Posting) (child : EntityRef) (c : Clause) (p : Parent) : Prop where
  resource : site.registry.schema.resource? p.resource.name = some p.resource
  relationship : p.resource.relationship? p.relationship.name = some p.relationship
  leads : site.registry.schema.target? p.relationship = some c.target
  spoken : c.resource = p.resource ∧ c.relationship = p.relationship
  covers : m.Covers child p.resource.name c.naming p.reference
  spares : m.Spares c

variable {c : Clause} {p : Parent} {x : EntityRef}

theorem Within.eq_of_through (hp : site.Within m child c p) {owner : Resource} {rel : Relationship}
    (h : (linkChange p x).Through site.registry.schema owner rel) :
    owner = p.resource ∧ rel = p.relationship := by
  obtain rfl : owner = p.resource := Option.some.inj (h.resource.symm.trans hp.resource)
  exact ⟨rfl, Option.some.inj (h.relationship.symm.trans hp.relationship)⟩

/-- A change of a membership spares the posted one if the row of its own end does. -/
theorem Within.sparesKeeper (hp : site.Within m child c p)
    (hx : ∀ column ∈ p.relationship.join.held, column ∉ m.columnsAt child c.target.name x) :
    m.SparesKeeper child (linkChange p x) p.resource p.relationship := by
  obtain ⟨hresource, hrelationship⟩ := hp.spoken
  have htarget : p.relationship.target = c.target.name := (Schema.name_of_resource? hp.leads).symm
  have howned := hp.spares.owned
  rw [hresource, hrelationship] at howned
  intro k hk column hcolumn
  rw [Relationship.foreignKey?] at hk
  cases hjoin : p.relationship.join with
  | foreignKey own referenced =>
    rw [hjoin] at hk howned
    cases hk
    rw [LinkChange.keeper, hjoin]
    exact fun h => howned rfl column hcolumn (hp.covers column h)
  | reverse own held =>
    rw [hjoin] at hk hx
    cases hk
    rw [LinkChange.keeper, hjoin, htarget]
    exact hx column hcolumn
  | association table own other =>
    rw [hjoin] at hk
    cases hk

theorem Within.spares_link (hp : site.Within m child c p)
    (hx : ∀ column ∈ p.relationship.join.held, column ∉ m.columnsAt child c.target.name x) :
    m.SparesCommand child site.registry.schema (.link (linkChange p x)) := by
  intro owner rel hthrough
  obtain ⟨rfl, rfl⟩ := hp.eq_of_through hthrough
  exact hp.sparesKeeper hx

theorem Within.spares_unlink (hp : site.Within m child c p) (hdetaches : c.Detaches)
    (hx : ∀ column ∈ p.relationship.join.held, column ∉ m.columnsAt child c.target.name x) :
    m.SparesCommand child site.registry.schema (.unlink (linkChange p x)) := by
  intro owner rel hthrough
  obtain ⟨rfl, rfl⟩ := hp.eq_of_through hthrough
  have hdetach := hp.spares.detaches hdetaches
  have hlinks := hp.spares.links hdetaches
  rw [hp.spoken.2] at hdetach hlinks
  exact ⟨hdetach, hlinks, hp.sparesKeeper hx⟩

theorem planUnlink_goes (hp : site.Within m child c p) (hw : m.Sees child w) (hdetaches : c.Detaches)
    {target : Resource} {k : Known} {value : Option Json} {u : Unit}
    (hx : ∀ column ∈ p.relationship.join.held, column ∉ m.columnsAt child c.target.name k.reference)
    (h : (site.planUnlink p target k value).run.run w = (.ok u, after)) :
    m.Goes child site.registry.schema w after := by
  obtain ⟨-, rfl⟩ := planUnlink_eq_ok h
  refine hw.goes [.unlink (linkChange p k.reference)] rfl (fun c' hc' => ?_) fun e he => .inl he
  cases List.mem_singleton.1 hc'
  exact hp.spares_unlink hdetaches hx

/-- Members of a relationship to one entity, of whom nothing else is known, are detached from it. -/
theorem displace_goes (hp : site.Within m child c p) (hw : m.Sees child w) (hone : p.relationship.isMany = false)
    {target : Resource} {keep : List String}
    (hkeep : c.Detaches ∨ (p.relationship.join.isForeignKey = true ∧ keep ≠ [])) {k : Known} {u : Unit}
    (h : (site.displace p target keep k).run.run w = (.ok u, after)) :
    m.Goes child site.registry.schema w after := by
  rcases displace_cases h with ⟨-, rfl⟩ | ⟨-, -, -, rfl⟩ | ⟨-, howned, h⟩
  · exact .refl hw
  · exact hw.idle rfl rfl
  · have hdetaches : c.Detaches := hkeep.resolve_right fun ⟨hforeign, hkept⟩ =>
      howned (by rw [hforeign, Bool.true_and, Bool.not_eq_true', List.isEmpty_eq_false_iff]; exact hkept)
    refine planUnlink_goes hp hw hdetaches (fun column hcolumn hin => ?_) h
    have hdisplaced := hp.spares.displaced
    rw [hp.spoken.2] at hdisplaced
    exact hdisplaced hone column hcolumn (mem_anyColumns hin)

theorem unlinkAbsent_goes (hp : site.Within m child c p) (hw : m.Sees child w)
    (hone : p.relationship.isMany = false) {keep : List String}
    (hkeep : c.Detaches ∨ (p.relationship.join.isForeignKey = true ∧ keep ≠ [])) {u : Unit}
    (h : (site.unlinkAbsent p c.target keep).run.run w = (.ok u, after)) :
    m.Goes child site.registry.schema w after := by
  obtain ⟨found, between, hmembers, hloop⟩ := bind_eq_ok h
  obtain ⟨hsame, -, -⟩ := currentMembers_eq_ok (Schema.resource?_of_target? hp.leads) hmembers
  rw [hsame] at hloop
  exact forM_induction (P := m.Goes child site.registry.schema w)
    (fun k _ start next u hgoes hround => hgoes.trans (displace_goes hp hgoes.sees hone hkeep hround)) (.refl hw) hloop

/-- An entity is linked to the one around it, and takes the place of others there. -/
theorem link_goes (hp : site.Within m child c p) (hw : m.Sees child w) {k : Known} {explicit : Bool}
    {path : String} {value : Json} {u : Unit}
    (hx : ∀ column ∈ p.relationship.join.held, column ∉ m.columnsAt child c.target.name k.reference)
    (h : (site.link p c.target k explicit path value).run.run w = (.ok u, after)) :
    m.Goes child site.registry.schema w after := by
  rcases link_cases h with ⟨-, found, rfl⟩ | ⟨-, vacated, hvacated, -, rfl⟩
  · exact hw.goes [] (List.append_nil _).symm (fun c' hc' => by cases hc') fun e he => .inl he
  · have hgoes : m.Goes child site.registry.schema w vacated := by
      rcases hvacated with ⟨-, rfl⟩ | ⟨hone, hunlink⟩
      · exact .refl hw
      · have hkeep : c.Detaches ∨ (p.relationship.join.isForeignKey = true ∧ [k.reference.key] ≠ []) := by
          cases hforeign : p.relationship.join.isForeignKey with
          | true => exact .inr ⟨rfl, List.cons_ne_nil _ _⟩
          | false => exact .inl (.inr (.inr (hp.spoken.2 ▸ ⟨hone, hforeign⟩)))
        exact unlinkAbsent_goes hp hw hone hkeep hunlink
    refine hgoes.trans (hgoes.sees.goes [.link (linkChange p k.reference)] rfl (fun c' hc' => ?_)
      fun e he => .inl he)
    cases List.mem_singleton.1 hc'
    exact hp.spares_link hx

/-! ## Objects -/

theorem DocumentOp.removes_of_ofMembers? (h : DocumentOp.ofMembers? members = .ok (some .remove)) :
    DocumentOp.Removes members := by
  by_contra hstays
  refine ne_remove_of_keeps (fun hget => hstays ?_) h rfl
  rw [DocumentOp.Removes, hget]
  rfl

/-- An object is looked up by the identity that it names, and then entered or detached. -/
theorem openObject_nested {path : String} {opened : Opened}
    (h : (site.openObject r path (.nested p) members).run.run w = (.ok opened, after)) :
    ∃ op known found, DocumentOp.ofMembers? members = .ok op ∧
      site.Finds r (r.identityIn? members) w known found ∧
      ((opened = .entered op (r.identityIn? members) known ∧ after = found) ∨
        ∃ k u, known = some k ∧ op = some .remove ∧ opened = .settled (some ⟨k.reference, true⟩) ∧
          (site.unlink p r k path (.obj members)).run.run found = (.ok u, after)) := by
  obtain ⟨op, _, hop, h₁⟩ := bind_eq_ok h
  obtain ⟨hread, rfl⟩ := liftM_eq_ok hop
  obtain ⟨identity, between, hidentity, h₂⟩ := bind_eq_ok h₁
  cases hidentity
  obtain ⟨known, found, hfinds, h₃⟩ := finds_of_identity h₂
  refine ⟨op, known, found, hread, hfinds, ?_⟩
  cases known with
  | none =>
    dsimp only at h₃
    split at h₃
    · split at h₃
      · cases h₃
      · cases h₃
    · cases h₃
      exact .inl ⟨rfl, rfl⟩
  | some k =>
    dsimp only at h₃
    split at h₃
    · rename_i hremove
      obtain ⟨u, _, hunlink, h₄⟩ := bind_eq_ok h₃
      cases h₄
      exact .inr ⟨k, u, rfl, hremove, rfl, hunlink⟩
    · cases h₃
      exact .inl ⟨rfl, rfl⟩

/-- An object of a clause is opened by what it tells of its entity. -/
theorem openObject_goes (hs : m.Stands child site) (hp : site.Within m child c p) (hw : m.Sees child w)
    (hmembers : members ∈ c.raw.objects) {path : String} {opened : Opened}
    (h : (site.openObject c.target path (.nested p) members).run.run w = (.ok opened, after)) :
    m.Goes child site.registry.schema w after ∧ ∀ op identity known, opened = .entered op identity known →
      identity = c.target.identityIn? members ∧
        ∀ k, known = some k → m.Covers child c.target.name (c.target.namingOf members) k.reference := by
  have hr := Schema.resource?_of_target? hp.leads
  obtain ⟨op, known, found, hread, hfinds, hopens⟩ := openObject_nested h
  have hfound : m.Goes child site.registry.schema w found ∧ ∀ k, known = some k →
      m.Covers child c.target.name (c.target.namingOf members) k.reference := by
    rw [Resource.namingOf]
    cases hgiven : c.target.identityIn? members with
    | none =>
      rw [hgiven] at hfinds
      obtain ⟨rfl, rfl⟩ := hfinds
      exact ⟨.refl hw, fun k hk => by cases hk⟩
    | some i =>
      rw [hgiven] at hfinds
      exact lookup_goes hs hr hw hgiven hfinds
  obtain ⟨hgoes, hcovers⟩ := hfound
  rcases hopens with ⟨rfl, rfl⟩ | ⟨k, u, rfl, rfl, rfl, hunlink⟩
  · refine ⟨hgoes, fun op identity known hopened => ?_⟩
    cases hopened
    exact ⟨rfl, hcovers⟩
  · refine ⟨hgoes.trans ?_, fun op identity known hopened => by cases hopened⟩
    obtain ⟨member, between, hmember, hrest⟩ := bind_eq_ok hunlink
    rw [isMember_eq_ok hmember] at hrest
    split at hrest
    · have hheld := hp.spares.held members hmembers
      rw [hp.spoken.2] at hheld
      exact planUnlink_goes hp hgoes.sees (.inr (.inl ⟨members, hmembers, DocumentOp.removes_of_ofMembers? hread⟩))
        (fun column hcolumn hin => hheld column hcolumn (hcovers k rfl column hin)) hrest
    · exact issue_goes hgoes.sees hrest

/-! ## Fields -/

/-- Reading a member of an object writes nothing, or the column of its field. Over a known row that is no
field of the identity. -/
theorem readField_cases {s : Scope} {values next : Record} {key : String} {raw : Json}
    (h : (site.readField s values key raw).run.run w = (.ok next, after)) :
    next = values ∨ ∃ f v, s.resource.field? key = some f ∧ next = values.insert f.column v ∧
      (s.known.isSome = true → s.resource.isIdentity f.name = false) := by
  unfold readField at h
  dsimp only at h
  split at h
  · obtain ⟨_, _, -, h⟩ := bind_eq_ok h
    cases h
    exact .inl rfl
  · rename_i f hf
    split at h
    · obtain ⟨_, _, -, h⟩ := bind_eq_ok h
      cases h
      exact .inl rfl
    · rename_i v _
      split at h
      · cases h
        exact .inl rfl
      · split at h
        · obtain ⟨_, _, -, h⟩ := bind_eq_ok h
          cases h
          exact .inl rfl
        · rename_i hidentity
          split at h
          · obtain ⟨_, _, -, h⟩ := bind_eq_ok h
            cases h
            exact .inl rfl
          · obtain ⟨_, _, -, h⟩ := bind_eq_ok h
            cases h
            refine .inr ⟨f, v, hf, rfl, fun hknown => ?_⟩
            rw [Scope.creating, ← Option.not_isSome, hknown] at hidentity
            simpa using hidentity

/-- Every value that an object writes comes from a field of it, and over a known row from none of the
identity. -/
theorem exists_field_of_readFields {s : Scope} {values : Record}
    (h : (site.readFields s members).run.run w = (.ok values, after)) {column : String} {v : Json}
    (hv : values.get? column = some v) :
    ∃ e ∈ members, ∃ f, s.resource.field? e.1 = some f ∧ f.column = column ∧
      (s.known.isSome = true → s.resource.isIdentity f.name = false) := by
  have hfold : (Dict.empty : Record).get? column = some v ∨
      ∃ e ∈ members, ∃ f, s.resource.field? e.1 = some f ∧ f.column = column ∧
        (s.known.isSome = true → s.resource.isIdentity f.name = false) := by
    unfold readFields at h
    generalize Dict.empty = start at h ⊢
    induction members generalizing start w with
    | nil =>
      cases h
      exact .inl hv
    | cons e rest ih =>
      rw [List.foldlM_cons] at h
      obtain ⟨next, between, hread, hrest⟩ := bind_eq_ok h
      rcases ih _ hrest with hnext | ⟨e', he', hfield⟩
      · obtain ⟨key, raw⟩ := e
        dsimp only at hread
        split at hread
        · cases hread
          exact .inl hnext
        · rcases readField_cases hread with rfl | ⟨f, x, hf, rfl, hidentity⟩
          · exact .inl hnext
          · by_cases hcolumn : column = f.column
            · exact .inr ⟨_, List.mem_cons_self, f, hf, hcolumn.symm, hidentity⟩
            · rw [Dict.get?_insert_of_ne _ hcolumn] at hnext
              exact .inl hnext
      · exact .inr ⟨e', List.mem_cons_of_mem e he', hfield⟩
  exact hfold.resolve_left fun hempty => by cases hempty

/-- The entity of an object of a clause is placed. -/
theorem place_goes {s : Scope} (hw : m.Sees child w) (naming : Naming)
    (hknown : ∀ k, s.known = some k → m.Covers child s.resource.name naming k.reference)
    (hidentity : ∀ i, s.identity = some i → naming = .named i.key)
    (hfields : ∀ e ∈ members, ∀ f, s.resource.field? e.1 = some f → s.resource.isIdentity f.name = false →
      f.column ∉ m.columns s.resource.name naming)
    {values : Record} {start read : Walk} (hread : (site.readFields s members).run.run start = (.ok values, read))
    {reference : EntityRef} (h : (site.place s members values).run.run w = (.ok reference, after)) :
    m.Goes child site.registry.schema w after ∧ m.Covers child s.resource.name naming reference := by
  -- What is noted is known by the name that the object tells.
  have hnoted : ∀ (k : Known), m.Covers child s.resource.name naming k.reference → ∀ (known : List _),
      ∀ e ∈ (s.identity.map fun i => ((s.resource.name, i.key), k)).toList ++ known,
        e ∈ known ∨ m.Covers child e.1.1 (.named e.1.2) e.2.reference := by
    intro k hk known e he
    rcases List.mem_append.1 he with he | he
    · obtain ⟨i, hi, rfl⟩ := Option.map_eq_some_iff.1 (Option.mem_toList.1 he)
      exact .inr (hidentity i hi ▸ hk)
    · exact .inl he
  cases placing_of_place h with
  | create _ _ =>
    have hfresh := hw.covers_fresh s.resource.name naming
    refine ⟨hw.goes [.create w.plan.pending s.resource.name values] rfl (fun c hc => ?_)
      (hnoted _ hfresh w.known), hfresh⟩
    cases List.mem_singleton.1 hc
    trivial
  | @update k hold _ _ =>
    have hcovers := hknown k hold
    refine ⟨hw.goes [.update s.resource.name k.reference values] rfl (fun c hc => ?_)
      (hnoted { k with record := k.record.union values } hcovers w.known), hcovers⟩
    cases List.mem_singleton.1 hc
    intro column hcolumn
    cases hv : values.get? column with
    | none => rfl
    | some v =>
      obtain ⟨e, he, f, hf, rfl, hother⟩ := exists_field_of_readFields hread hv
      exact absurd (hcovers _ hcolumn) (hfields e he f hf (hother (by rw [hold]; rfl)))
  | @keep k hold _ => exact ⟨.refl hw, hknown k hold⟩

/-! ## Documents -/

/-- An entity is placed where a clause speaks of it, and attached there. -/
theorem attach_goes (hp : site.Within m child c p) (hw : m.Sees child w) {s : Scope}
    (hresource : s.resource = c.target) (hposition : s.position = .nested p) {op : Option DocumentOp}
    {reference : EntityRef} {u : Unit}
    (hx : ∀ column ∈ p.relationship.join.held, column ∉ m.columnsAt child c.target.name reference)
    (h : (site.attach s op members reference).run.run w = (.ok u, after)) :
    m.Goes child site.registry.schema w after := by
  unfold attach at h
  rw [hposition, hresource] at h
  exact link_goes hp hw hx h

mutual

/-- The plan for an object of a clause spares the membership. -/
theorem visit_goes {c : Clause} {p : Parent} (hs : m.Stands child site) (hp : site.Within m child c p)
    {w after : Walk} (hw : m.Sees child w) {path : String} {visited : Option Visited} :
    ∀ document : Json, (∀ members, document = .obj members → members ∈ c.raw.objects) →
      (∀ c' ∈ clausesBelow site.registry.schema c.target document, m.Spares c') →
      (site.visit c.target path (.nested p) .patch document).run.run w = (.ok visited, after) →
        m.Goes child site.registry.schema w after
  | .obj members, hobject, hclauses, h => by
    have hmembers := hobject members rfl
    rw [clausesBelow] at hclauses
    rw [visit] at h
    obtain ⟨opened, start, hopen, h₁⟩ := bind_eq_ok h
    obtain ⟨hopening, hentered⟩ := openObject_goes hs hp hw hmembers hopen
    split at h₁
    · cases h₁
      exact hopening
    · rename_i op identity known
      obtain ⟨rfl, hknown⟩ := hentered op identity known rfl
      obtain ⟨values, read, hread, h₂⟩ := bind_eq_ok h₁
      obtain ⟨fields, hasked, -⟩ := readFields_eq_ok hread
      have hreading : m.Goes child site.registry.schema start read := hopening.sees.asked hasked
      have hwritten : ∀ {between : Walk}, m.Sees child between → (do
          let reference ← site.place ⟨c.target, path, .nested p, c.target.identityIn? members, known⟩ members values
          site.attach ⟨c.target, path, .nested p, c.target.identityIn? members, known⟩ op members reference
          site.visitRelationships ⟨c.target, path, .nested p, c.target.identityIn? members, known⟩ reference
            .patch members
          pure (some ⟨reference, false⟩) : Walking (Option Visited)).run.run between = (.ok visited, after) →
            m.Goes child site.registry.schema between after := by
        intro between hbetween h
        obtain ⟨reference, placed, hplace, h⟩ := bind_eq_ok h
        obtain ⟨hplacing, hcovers⟩ := place_goes hbetween (c.target.namingOf members) hknown
          (fun i hi => by rw [Resource.namingOf, show c.target.identityIn? members = some i from hi])
          (hp.spares.fields members hmembers) hread hplace
        obtain ⟨_, attached, hattach, h⟩ := bind_eq_ok h
        have hattaching := attach_goes hp hplacing.sees rfl rfl (fun column hcolumn hin => by
          have hheld := hp.spares.held members hmembers
          rw [hp.spoken.2] at hheld
          exact hheld column hcolumn (hcovers column hin)) hattach
        obtain ⟨_, walked, hwalk, h⟩ := bind_eq_ok h
        cases h
        exact (hplacing.trans hattaching).trans (visitRelationships_goes hs hattaching.sees
          (Schema.resource?_of_target? hp.leads) hcovers members hclauses hwalk)
      dsimp only at h₂
      split at h₂
      · obtain ⟨_, required, hrequire, h₃⟩ := bind_eq_ok h₂
        have hrequired : m.Goes child site.registry.schema read required :=
          hreading.sees.asked (show site.Asked [] read required from requireFields_asked hrequire)
        exact ((hopening.trans hreading).trans hrequired).trans (hwritten hrequired.sees h₃)
      · exact (hopening.trans hreading).trans (hwritten hreading.sees h₂)
  | .null, _, _, h | .bool _, _, _, h | .num _, _, _, h | .str _, _, _, h | .arr _, _, _, h => by
    rw [visit] at h
    · obtain ⟨_, _, hissue, h⟩ := bind_eq_ok h
      cases h
      exact issue_goes hw hissue
    · exact nofun
termination_by document => sizeOf document

/-- What an object says of the relationships of its entity spares the membership. -/
theorem visitRelationships_goes (hs : m.Stands child site) {s : Scope} {reference : EntityRef} {naming : Naming}
    {w after : Walk} {u : Unit} (hw : m.Sees child w)
    (hr : site.registry.schema.resource? s.resource.name = some s.resource)
    (hcovers : m.Covers child s.resource.name naming reference) :
    ∀ members : List (String × Json),
      (∀ c ∈ clauses site.registry.schema s.resource naming members, m.Spares c) →
      (site.visitRelationships s reference .patch members).run.run w = (.ok u, after) →
        m.Goes child site.registry.schema w after
  | [], _, h => by
    rw [visitRelationships] at h
    cases h
    exact .refl hw
  | (key, raw) :: rest, hclauses, h => by
    rw [visitRelationships] at h
    have hrest : ∀ {between : Walk} {u : Unit}, m.Goes child site.registry.schema w between →
        (site.visitRelationships s reference .patch rest).run.run between = (.ok u, after) →
          m.Goes child site.registry.schema w after := fun hgoes h =>
      hgoes.trans (visitRelationships_goes hs hgoes.sees hr hcovers rest
        (fun c hc => hclauses c (mem_clauses_of_mem_rest hc (key, raw))) h)
    dsimp only at h
    split at h
    · exact hrest (.refl hw) h
    · rename_i hkey
      split at h
      · exact hrest (.refl hw) h
      · rename_i rel hrel
        split at h
        · exact hrest (.refl hw) h
        · rename_i hstring
          split at h
          · obtain ⟨_, _, hissue, h₁⟩ := bind_eq_ok h
            exact hrest (issue_goes hw hissue) h₁
          · obtain ⟨target, _, hrequire, h₁⟩ := bind_eq_ok h
            obtain ⟨htarget, rfl⟩ := liftM_eq_ok hrequire
            replace htarget := Schema.require_eq_ok.1 htarget
            have hsaid := fun c h => hclauses c (mem_clauses_of_walked (by rw [Resource.walked?, if_neg hkey, hrel])
              htarget hstring h)
            have hp : site.Within m child ⟨s.resource, naming, rel, target, raw⟩
                ⟨s.resource, rel, reference, s.existing⟩ :=
              { resource := hr
                relationship := (Resource.name_of_relationship? hrel).symm ▸ hrel
                leads := htarget
                spoken := ⟨rfl, rfl⟩
                covers := hcovers
                spares := hsaid _ (.inl rfl) }
            have hbelow := fun c hc => hsaid c (.inr hc)
            split at h₁
            · split at h₁
              · rename_i items
                obtain ⟨mentioned, walked, hitems, h₂⟩ := bind_eq_ok h₁
                rw [clausesBelow] at hbelow
                have hgoes := visitItems_goes hs hp hw items
                  (fun members hmem => List.mem_filterMap.2 ⟨_, hmem, rfl⟩) hbelow hitems
                exact hrest hgoes h₂
              · obtain ⟨_, _, hissue, h₂⟩ := bind_eq_ok h₁
                exact hrest (issue_goes hw hissue) h₂
            · rename_i hone
              split at h₁
              · obtain ⟨_, _, hvisit, h₂⟩ := bind_eq_ok h₁
                refine hrest (visit_goes hs hp hw raw (fun members hraw => ?_) hbelow hvisit) h₂
                subst hraw
                exact List.mem_singleton.2 rfl
              · split at h₁
                · rename_i hnull
                  obtain ⟨_, _, hunlink, h₂⟩ := bind_eq_ok h₁
                  exact hrest (unlinkAbsent_goes hp hw (Bool.not_eq_true _ ▸ hone) (.inl (.inl hnull)) hunlink) h₂
                · obtain ⟨_, _, hissue, h₂⟩ := bind_eq_ok h₁
                  exact hrest (issue_goes hw hissue) h₂
termination_by members => sizeOf members

theorem visitItems_goes {c : Clause} {p : Parent} (hs : m.Stands child site) (hp : site.Within m child c p)
    {w after : Walk} (hw : m.Sees child w) {path : String} {index : Nat} {mentioned : List String} :
    ∀ items : List Json, (∀ members, Json.obj members ∈ items → members ∈ c.raw.objects) →
      (∀ c' ∈ clausesOfItems site.registry.schema c.target items, m.Spares c') →
      (site.visitItems c.target path p index items).run.run w = (.ok mentioned, after) →
        m.Goes child site.registry.schema w after
  | [], _, _, h => by
    rw [visitItems] at h
    cases h
    exact .refl hw
  | item :: rest, hobjects, hclauses, h => by
    rw [visitItems] at h
    rw [clausesOfItems] at hclauses
    obtain ⟨visited, between, hvisit, h₁⟩ := bind_eq_ok h
    have hfirst := visit_goes hs hp hw item (fun members hitem => hobjects members (hitem ▸ List.mem_cons_self))
      (fun c' hc => hclauses c' (List.mem_append_left _ hc)) hvisit
    obtain ⟨others, walked, hothers, h₂⟩ := bind_eq_ok h₁
    have hrest := visitItems_goes hs hp hfirst.sees rest
      (fun members hmem => hobjects members (List.mem_cons_of_mem _ hmem))
      (fun c' hc => hclauses c' (List.mem_append_right _ hc)) hothers
    split at h₂
    · cases h₂
      exact hfirst.trans hrest
    · cases h₂
      exact hfirst.trans hrest
termination_by items => sizeOf items

end

end WalkSite

end NestedResources
