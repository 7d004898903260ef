import NestedResources.Proofs.Store.Exact
import NestedResources.Proofs.Write.Moves

/-!
# Walks that no gate stops

Where every gate lets everything through, the parts of a walk end well, and what they do to its state can
be said in full: what is planned, remembered and reported.
-/
namespace NestedResources

/-- A gate that lets everything through. -/
structure Gate.IsOpen (gate : Gate) : Prop where
  allows : ∀ r m ctx, gate.allows r m ctx = true
  required : ∀ r ctx, gate.required r ctx = none
  permits : ∀ change ctx, gate.permits change ctx = true

theorem Gate.isOpen_allowAll : Gate.allowAll.IsOpen :=
  ⟨fun _ _ _ => rfl, fun _ _ => rfl, fun _ _ => rfl⟩

theorem mem_of_lastOf? {κ α : Type} [DecidableEq κ] {key : κ} {pairs : List (κ × α)} {a : α}
    (h : lastOf? key pairs = some a) : (key, a) ∈ pairs := by
  obtain ⟨e, he, rfl⟩ := Option.map_eq_some_iff.1 h
  have hkey : e.1 = key := by simpa using List.find?_some he
  exact hkey ▸ List.mem_reverse.1 (List.mem_of_find?_eq_some he)

namespace Registry

/-- Every gate lets everything through. -/
structure IsOpen (g : Registry) : Prop where
  gates : ∀ e ∈ g.gates, e.2.IsOpen
  relationshipGates : ∀ e ∈ g.relationshipGates, e.2.IsOpen

namespace IsOpen

variable {g : Registry} (h : g.IsOpen)
include h

theorem gateWithRef (resource : String) : (g.gateWithRef resource).2.IsOpen := by
  unfold Registry.gateWithRef
  split
  · rename_i gate hgate
    exact h.gates _ (mem_of_lastOf? hgate)
  · exact Gate.isOpen_allowAll

theorem relationshipGateWithRef (resource relationship : String) :
    (g.relationshipGateWithRef resource relationship).2.IsOpen := by
  unfold Registry.relationshipGateWithRef
  split
  · rename_i gate hgate
    exact h.relationshipGates _ (mem_of_lastOf? hgate)
  · exact h.gateWithRef resource

/-- Nothing is required of rows. -/
theorem required (ctx : Context) (r : Resource) : g.required ctx r = .ok none := by
  have hgate := (h.gateWithRef r.name).required r ctx
  rw [Registry.required, requiredWithin.eq_def]
  simp only [gate, hgate]

end IsOpen

end Registry

/-- The entity has a row, which is filed under its key. -/
structure Tables.Stores (t : Tables) (r : Resource) (i : Identity) (record : Record) : Prop where
  row : t.row? r.name i = some record
  identity : r.identityOf? record = some i

namespace Tables.Stores

variable {t : Tables} {r : Resource} {i : Identity} {record : Record}

theorem mem_rowsOf (h : t.Stores r i record) : record ∈ t.rowsOf r.name :=
  Tables.mem_rowsOf.2 ⟨i.key, h.row⟩

/-- Entities that are stored under one key are one. -/
theorem eq_of_key (h : t.Stores r i record) {j : Identity} {other : Record} (hj : t.Stores r j other)
    (hkey : i.key = j.key) : i = j := by
  have hrow : t.rowAt? r.name j.key = some record := hkey ▸ h.row
  have hother : t.rowAt? r.name j.key = some other := hj.row
  cases hrow.symm.trans hother
  exact Option.some.inj (h.identity.symm.trans hj.identity)

/-- The condition on the identity columns finds the row and no other. -/
theorem passes_identity_iff (h : t.Stores r i record) (htypes : ∀ f ∈ r.identityFields, f.type.isExact = true)
    (hfiled : t.FiledExactly r) (schema : Schema) {row : Record} (hrow : row ∈ t.rowsOf r.name) :
    t.passes schema r (some (.identity r i)) row = true ↔ row = record := by
  obtain ⟨key, hkey⟩ := Tables.mem_rowsOf.1 hrow
  obtain ⟨j, hj, hjkey, hjexact⟩ := hfiled key row hkey
  obtain ⟨k, hk, -, hkexact⟩ := hfiled i.key record h.row
  cases hk.symm.trans h.identity
  have hlength : i.values.length = r.identityFields.length :=
    (Resource.identityOf?_eq_some.1 h.identity).length_eq.symm
  rw [Predicate.passes_identity_iff htypes hj hjexact hkexact hlength]
  constructor
  · rintro rfl
    have hstored : t.rowAt? r.name j.key = some record := h.row
    rw [hjkey, hkey] at hstored
    exact Option.some.inj hstored
  · rintro rfl
    exact Option.some.inj (hj.symm.trans h.identity)

end Tables.Stores

namespace WalkSite

open Walking

/-- What a walk knows of a stored row that it has not written to. -/
def storedAs? (r : Resource) (record : Record) : Option Known :=
  (r.identityOf? record).map fun i => ⟨.existing i, record, false⟩

theorem references_storedAs? (r : Resource) (records : List Record) :
    (records.filterMap (storedAs? r)).map Known.reference =
      (records.filterMap r.identityOf?).map EntityRef.existing := by
  rw [List.map_filterMap, List.map_filterMap]
  refine List.filterMap_congr fun record _ => ?_
  rw [storedAs?, Option.map_map]
  rfl

/-- What a stretch of a walk plans, remembers and reports; it learns nothing. -/
structure Moves (w after : Walk) (commands : List Command) (memberships : List (LinkKey × Bool))
    (found : List Issue) : Prop where
  commands : after.plan.commands = w.plan.commands ++ commands
  known : after.known = w.known
  memberships : after.memberships = memberships ++ w.memberships
  issues : after.issues = w.issues ++ found

variable {site : WalkSite} {w after : Walk}

theorem Moves.refl (w : Walk) : Moves w w [] [] [] :=
  ⟨(List.append_nil _).symm, rfl, rfl, (List.append_nil _).symm⟩

theorem Moves.trans {between : Walk} {cs cs' : List Command} {ms ms' : List (LinkKey × Bool)}
    {found more : List Issue} (h : Moves w between cs ms found) (k : Moves between after cs' ms' more) :
    Moves w after (cs ++ cs') (ms' ++ ms) (found ++ more) :=
  ⟨by rw [k.commands, h.commands, List.append_assoc], k.known.trans h.known,
    by rw [k.memberships, h.memberships, List.append_assoc],
    by rw [k.issues, h.issues, List.append_assoc]⟩

/-- A command is planned and its membership remembered. -/
theorem Moves.plans {between : Walk} (h : Moves w between [] [] []) (c : Command) (m : LinkKey × Bool) :
    Moves w { between with plan := between.plan.push c, memberships := m :: between.memberships }
      [c] [m] [] :=
  ⟨by simp [Plan.push, h.commands], h.known, by simp [h.memberships], h.issues⟩

theorem issue_run (path : String) (d : Defect) (w : Walk) :
    ∃ after, (issue path d).run.run w = (.ok (), after) ∧ Moves w after [] [] [d.issueAt path] :=
  ⟨_, rfl, (List.append_nil _).symm, rfl, rfl, rfl⟩

/-! ## Gates -/

theorem permit_run (site : WalkSite) {gate : GateRef × Gate} (hgate : gate.2.IsOpen) (change : Change)
    (w : Walk) :
    ∃ after, (site.permit gate change).run.run w = (.ok (), after) ∧ Moves w after [] [] [] := by
  refine ⟨{ w with consulted := w.consulted ++ [⟨gate.1, change, true⟩] }, ?_,
    (List.append_nil _).symm, rfl, rfl, (List.append_nil _).symm⟩
  unfold permit
  rw [hgate.permits]
  rfl

section

variable (hopen : site.registry.IsOpen)
include hopen

theorem permitRelationship_run (p : Parent) (target : Resource) (child : Option Record) (action : Action)
    (value : Option Json) (w : Walk) :
    ∃ after, (site.permitRelationship p target child action value).run.run w = (.ok (), after) ∧
      Moves w after [] [] [] := by
  unfold permitRelationship
  obtain ⟨between, hown, hmoves⟩ := permit_run site (hopen.relationshipGateWithRef
    p.resource.name p.relationship.name) { resource := p.resource
                                           subject := .relationship p.relationship.name
                                           action, value, existing := p.existing, parent := none } w
  rw [bind_of_ok hown]
  split
  · exact ⟨between, rfl, hmoves⟩
  · rename_i inverse _
    obtain ⟨after, hother, hmoves'⟩ := permit_run site
      (hopen.relationshipGateWithRef target.name inverse.name) _ between
    exact ⟨after, hother, hmoves.trans hmoves'⟩

end

/-! ## Finding entities -/

theorem lookup_met {r : Resource} {i : Identity} {k : Known}
    (h : firstOf? (r.name, i.key) w.known = some k) :
    (site.lookup r i).run.run w = (.ok (some k), w) := by
  unfold lookup
  rw [bind_of_ok (get_run w), h]
  rfl

/-- A stored entity that the walk has not met is found and known from then on. -/
theorem lookup_stored (hopen : site.registry.IsOpen) {r : Resource} {i : Identity} {record : Record}
    (hr : site.registry.schema.resource? r.name = some r)
    (htypes : ∀ f ∈ r.identityFields, f.type.isExact = true) (hfiled : site.tables.FiledExactly r)
    (hstores : site.tables.Stores r i record) (hnew : firstOf? (r.name, i.key) w.known = none) :
    (site.lookup r i).run.run w = (.ok (some ⟨.existing i, record, false⟩),
      { w with known := ((r.name, i.key), ⟨.existing i, record, false⟩) :: w.known }) := by
  obtain ⟨rows, hfetch, hpass, hnone⟩ := site.tables.fetch_first hr (some (.identity r i))
  have hrows : ∃ row rest, rows = row :: rest := by
    cases rows with
    | nil =>
      have hfails := hnone rfl record hstores.mem_rowsOf
      rw [(hstores.passes_identity_iff htypes hfiled _ hstores.mem_rowsOf).2 rfl] at hfails
      cases hfails
    | cons row rest => exact ⟨row, rest, rfl⟩
  obtain ⟨row, rest, rfl⟩ := hrows
  obtain ⟨hmem, hpasses⟩ := hpass row List.mem_cons_self
  have hrow : row.record = record := (hstores.passes_identity_iff htypes hfiled _ hmem).1 hpasses
  unfold lookup
  rw [bind_of_ok (get_run w), hnew]
  rw [bind_of_ok (liftM_ok (hopen.required site.ctx r) w)]
  simp only [Predicate.conjoin]
  rw [bind_of_ok (liftM_ok hfetch w)]
  dsimp only
  rw [hrow, hstores.identity, Option.getD_some]
  rfl

/-! ## Members -/

/-- A stored entity with one of its relationships. -/
structure Owns (site : WalkSite) (p : Parent) (target : Resource) (i : Identity) (record : Record) :
    Prop where
  resource : site.registry.schema.resource? p.resource.name = some p.resource
  relationship : p.resource.relationship? p.relationship.name = some p.relationship
  leads : site.registry.schema.target? p.relationship = some target
  reference : p.reference = .existing i
  row : site.tables.row? p.resource.name i = some record

/-- Whether a key is one of a member, after the changes remembered so far. -/
def hasMember (site : WalkSite) (p : Parent) (target : Resource) (record : Record) (w : Walk)
    (key : String) : Bool :=
  (firstOf? ⟨p.resource.name, p.relationship.name, p.reference.key, key⟩ w.memberships).getD
    (decide (key ∈ site.tables.memberKeys site.registry.schema p.resource target record p.relationship))

namespace Owns

variable {p : Parent} {target : Resource} {i j : Identity} {record childRow : Record}

theorem resource_target (h : site.Owns p target i record) :
    site.registry.schema.resource? target.name = some target := Schema.resource?_of_target? h.leads

theorem memberOf_holds (h : site.Owns p target i record) (row : Record) :
    (Predicate.memberOf p.resource.name i p.relationship.name).holds site.tables site.registry.schema
      target row = Predicate.isAmong target row
        (site.tables.members site.registry.schema p.resource record p.relationship) := by
  rw [Predicate.holds, h.resource]
  simp only [h.relationship, h.row]

theorem isAmong_iff (h : target.identityOf? childRow = some j) {t : Tables} {s : Schema} {r : Resource}
    {rel : Relationship} : Predicate.isAmong target childRow (t.members s r record rel) = true ↔
      j.key ∈ t.memberKeys s r target record rel := by
  simp only [Predicate.isAmong, h, List.any_eq_true, Option.any_eq_true, decide_eq_true_eq,
    Tables.mem_memberKeys]

/-- Whether an entity is a member is told if the condition on its identity finds its row alone. -/
theorem isMember_of_found (h : site.Owns p target i record)
    (hfound : ∀ row ∈ site.tables.rowsOf target.name, site.tables.passes site.registry.schema target
      (some (.identity target j)) row = true ↔ row = childRow)
    (hchild : site.tables.Stores target j childRow) :
    (site.isMember p target (.existing j)).run.run w =
      (.ok (site.hasMember p target record w j.key), w) := by
  unfold isMember hasMember
  rw [bind_of_ok (get_run w)]
  have hkey : p.linkKey (.existing j) =
      ⟨p.resource.name, p.relationship.name, p.reference.key, j.key⟩ := rfl
  rw [hkey]
  cases firstOf? (⟨p.resource.name, p.relationship.name, p.reference.key, j.key⟩ : LinkKey)
    w.memberships with
  | some value => rfl
  | none =>
    simp only [h.reference, Option.getD_none]
    rw [bind_of_ok (liftM_ok (site.tables.count_eq h.resource_target _) w)]
    have hpass : ∀ row ∈ site.tables.rowsOf target.name, site.tables.passes site.registry.schema target
        (some (Predicate.all [.identity target j,
          .memberOf p.resource.name i p.relationship.name])) row = true ↔
            row = childRow ∧ j.key ∈ site.tables.memberKeys site.registry.schema p.resource target record
              p.relationship := by
      intro row hrow
      rw [← hfound row hrow]
      simp only [Tables.passes, Predicate.holds_all, List.all_cons, List.all_nil, Bool.and_true,
        Bool.and_eq_true, h.memberOf_holds]
      refine and_congr_right fun hidentity => ?_
      have hsame := (hfound row hrow).1 hidentity
      rw [hsame, isAmong_iff hchild.identity]
    have hcount : (0 < (site.tables.rowsOf target.name).countP (site.tables.passes site.registry.schema
        target (some (Predicate.all [.identity target j,
          .memberOf p.resource.name i p.relationship.name])))) ↔
        j.key ∈ site.tables.memberKeys site.registry.schema p.resource target record p.relationship := by
      rw [List.countP_pos_iff]
      constructor
      · rintro ⟨row, hrow, hpasses⟩
        exact ((hpass row hrow).1 hpasses).2
      · exact fun hmem => ⟨childRow, hchild.mem_rowsOf, (hpass _ hchild.mem_rowsOf).2 ⟨rfl, hmem⟩⟩
    simp only [hcount]
    rfl

theorem isMember_run (h : site.Owns p target i record)
    (htypes : ∀ f ∈ target.identityFields, f.type.isExact = true)
    (hfiled : site.tables.FiledExactly target) (hchild : site.tables.Stores target j childRow) :
    (site.isMember p target (.existing j)).run.run w =
      (.ok (site.hasMember p target record w j.key), w) :=
  h.isMember_of_found
    (fun _ hrow => hchild.passes_identity_iff htypes hfiled site.registry.schema hrow) hchild

/-- The members at hand are those that are stored and were not detached before. -/
theorem currentMembers_run (h : site.Owns p target i record) (hopen : site.registry.IsOpen) (w : Walk) :
    ∃ members, (site.currentMembers p target).run.run w = (.ok members, w) ∧
      (∀ m ∈ members, ∃ j row, m = ⟨.existing j, row, false⟩ ∧ row ∈ site.tables.rowsOf target.name ∧
        target.identityOf? row = some j ∧ j.key ∈ site.tables.memberKeys site.registry.schema p.resource
          target record p.relationship ∧ site.hasMember p target record w j.key = true) ∧
      ∀ key ∈ site.tables.memberKeys site.registry.schema p.resource target record p.relationship,
        site.hasMember p target record w key = true → ∃ m ∈ members, m.reference.key = key := by
  obtain ⟨rows, hfetch, hrow⟩ := site.tables.fetch_all h.resource_target
    (some (.memberOf p.resource.name i p.relationship.name))
  unfold currentMembers
  simp only [h.reference]
  rw [bind_of_ok (liftM_ok (hopen.required site.ctx target) w)]
  simp only [Predicate.conjoin]
  rw [bind_of_ok (liftM_ok hfetch w), bind_of_ok (get_run w)]
  have hstored : ∀ j : Identity, j.key ∈ site.tables.memberKeys site.registry.schema p.resource target
      record p.relationship → (firstOf? (p.linkKey (.existing j)) w.memberships = some false ↔
        ¬site.hasMember p target record w j.key = true) := by
    intro j hj
    unfold hasMember
    have hkey : p.linkKey (.existing j) =
        ⟨p.resource.name, p.relationship.name, p.reference.key, j.key⟩ := rfl
    rw [hkey]
    cases firstOf? (⟨p.resource.name, p.relationship.name, p.reference.key, j.key⟩ : LinkKey)
      w.memberships with
    | none => simp [hj]
    | some value => cases value <;> simp
  refine ⟨_, rfl, fun m hm => ?_, fun key hkey hmember => ?_⟩
  · obtain ⟨row, hrows, hm⟩ := List.mem_filterMap.1 hm
    obtain ⟨found, hmem, hpasses, rfl⟩ := (hrow row).1 hrows
    obtain ⟨j, hj, hm⟩ := Option.bind_eq_some_iff.1 hm
    have hidentity : target.identityOf? found = some j := hj
    rw [Tables.passes, h.memberOf_holds, isAmong_iff hidentity] at hpasses
    split at hm
    · cases hm
    · rename_i hstays
      cases hm
      refine ⟨j, found, rfl, hmem, hidentity, hpasses, ?_⟩
      rw [hstored j hpasses, not_not] at hstays
      exact hstays
  · obtain ⟨found, hfound, j, hj, rfl⟩ := Tables.mem_memberKeys.1 hkey
    have hmem := Tables.mem_rowsOf_of_mem_members h.leads hfound
    have hpasses : site.tables.passes site.registry.schema target
        (some (.memberOf p.resource.name i p.relationship.name)) found = true := by
      rw [Tables.passes, h.memberOf_holds, isAmong_iff hj]
      exact hkey
    refine ⟨⟨.existing j, found, false⟩, List.mem_filterMap.2 ⟨.mk found [],
      (hrow _).2 ⟨found, hmem, hpasses, rfl⟩, Option.bind_eq_some_iff.2 ⟨j, hj, if_neg ?_⟩⟩, rfl⟩
    exact fun hgone => (hstored j hkey).1 hgone hmember

/-! ## Changes of memberships -/

section

variable (hopen : site.registry.IsOpen)
include hopen

theorem planUnlink_run (p : Parent) (target : Resource) (child : Known) (value : Option Json)
    (w : Walk) : ∃ after, (site.planUnlink p target child value).run.run w = (.ok (), after) ∧
      Moves w after [.unlink (linkChange p child.reference)] [(p.linkKey child.reference, false)] [] := by
  obtain ⟨between, hpermit, hmoves⟩ :=
    permitRelationship_run hopen p target child.existing? .remove value w
  unfold planUnlink
  rw [bind_of_ok hpermit]
  exact ⟨_, rfl, hmoves.plans _ _⟩

/-- An entity becomes a member of a relationship to several entities unless it is one. -/
theorem link_run (h : site.Owns p target i record)
    (htypes : ∀ f ∈ target.identityFields, f.type.isExact = true)
    (hfiled : site.tables.FiledExactly target) (hmany : p.relationship.isMany = true)
    (hchild : site.tables.Stores target j childRow) {child : Known}
    (hreference : child.reference = .existing j) (explicit : Bool) (path : String) (value : Json)
    (w : Walk) :
    ∃ after, (site.link p target child explicit path value).run.run w = (.ok (), after) ∧
      if site.hasMember p target record w j.key then Moves w after [] []
        (if explicit then [(Defect.alreadyMember p.relationship.name).issueAt (pathOrRoot path)] else [])
      else Moves w after [.link (linkChange p (.existing j))] [(p.linkKey (.existing j), true)] [] := by
  unfold link
  rw [hreference, bind_of_ok (h.isMember_run htypes hfiled hchild)]
  cases site.hasMember p target record w j.key with
  | true =>
    cases explicit with
    | true => exact issue_run _ _ w
    | false => exact ⟨w, rfl, .refl w⟩
  | false =>
    obtain ⟨between, hpermit, hmoves⟩ :=
      permitRelationship_run hopen p target child.existing? .add (some value) w
    simp only [hmany, Bool.false_eq_true, Bool.not_true, if_false]
    rw [bind_of_ok hpermit]
    exact ⟨_, rfl, hmoves.plans _ _⟩

omit hopen in
/-- A member becomes no member anew. -/
theorem link_of_member (h : site.Owns p target i record)
    (htypes : ∀ f ∈ target.identityFields, f.type.isExact = true)
    (hfiled : site.tables.FiledExactly target) (hchild : site.tables.Stores target j childRow)
    (hmember : site.hasMember p target record w j.key = true) {child : Known}
    (hreference : child.reference = .existing j) (path : String) (value : Json) :
    (site.link p target child false path value).run.run w = (.ok (), w) := by
  unfold link
  rw [hreference, bind_of_ok (h.isMember_run htypes hfiled hchild), hmember]
  rfl

theorem unlink_run (h : site.Owns p target i record)
    (htypes : ∀ f ∈ target.identityFields, f.type.isExact = true)
    (hfiled : site.tables.FiledExactly target) (hchild : site.tables.Stores target j childRow)
    {child : Known} (hreference : child.reference = .existing j) (path : String) (value : Json)
    (w : Walk) :
    ∃ after, (site.unlink p target child path value).run.run w = (.ok (), after) ∧
      if site.hasMember p target record w j.key then
        Moves w after [.unlink (linkChange p (.existing j))] [(p.linkKey (.existing j), false)] []
      else Moves w after [] [] [(Defect.notMember p.relationship.name).issueAt (pathOrRoot path)] := by
  unfold unlink
  rw [hreference, bind_of_ok (h.isMember_run htypes hfiled hchild)]
  cases site.hasMember p target record w j.key with
  | true =>
    have hplan := planUnlink_run hopen p target child (some value) w
    rw [hreference] at hplan
    exact hplan
  | false => exact issue_run _ _ w

omit hopen in
theorem displace_of_mem {p : Parent} {target : Resource} {keep : List String} {m : Known}
    (h : m.reference.key ∈ keep) (w : Walk) : (site.displace p target keep m).run.run w = (.ok (), w) := by
  unfold displace
  rw [if_pos h]
  rfl

theorem displace_of_notMem {p : Parent} (target : Resource) {keep : List String} {m : Known}
    (hown : p.relationship.join.isForeignKey = false) (h : m.reference.key ∉ keep) (w : Walk) :
    ∃ after, (site.displace p target keep m).run.run w = (.ok (), after) ∧
      Moves w after [.unlink (linkChange p m.reference)] [(p.linkKey m.reference, false)] [] := by
  unfold displace
  rw [if_neg h, hown]
  exact planUnlink_run hopen p target m none w

/-- Of stored members those that are not kept are detached one after the other. -/
theorem displaceAll_run {p : Parent} (target : Resource) (hown : p.relationship.join.isForeignKey = false)
    (keep : List String) {members : List Known}
    (hmembers : ∀ m ∈ members, ∃ j row, m = ⟨.existing j, row, false⟩) (w : Walk) :
    ∃ after, ∃ gone : List Identity,
      (members.forM (site.displace p target keep)).run.run w = (.ok (), after) ∧
      Moves w after (gone.map fun j => .unlink (linkChange p (.existing j)))
        (gone.map fun j => (p.linkKey (.existing j), false)).reverse [] ∧
      ∀ j, j ∈ gone ↔ (∃ m ∈ members, m.reference = .existing j) ∧ j.key ∉ keep := by
  induction members generalizing w with
  | nil => exact ⟨w, [], rfl, .refl w, by simp⟩
  | cons m rest ih =>
    obtain ⟨j, row, rfl⟩ := hmembers m List.mem_cons_self
    have hrest := fun m hm => hmembers m (List.mem_cons_of_mem _ hm)
    change ∃ after, ∃ gone : List Identity, (site.displace p target keep ⟨.existing j, row, false⟩ >>=
      fun _ => rest.forM (site.displace p target keep)).run.run w = _ ∧ _
    by_cases hkeep : j.key ∈ keep
    · rw [bind_of_ok (displace_of_mem hkeep w)]
      obtain ⟨after, gone, hrun, hmoves, hgone⟩ := ih hrest w
      refine ⟨after, gone, hrun, hmoves, fun k => (hgone k).trans ?_⟩
      simp only [List.mem_cons, exists_eq_or_imp, EntityRef.existing.injEq]
      constructor
      · exact fun hk => ⟨.inr hk.1, hk.2⟩
      · rintro ⟨rfl | hk, hnew⟩
        · exact absurd hkeep hnew
        · exact ⟨hk, hnew⟩
    · obtain ⟨between, hdisplace, hfirst⟩ :=
        displace_of_notMem hopen target (m := ⟨.existing j, row, false⟩) hown hkeep w
      rw [bind_of_ok hdisplace]
      obtain ⟨after, gone, hrun, hmoves, hgone⟩ := ih hrest between
      refine ⟨after, j :: gone, hrun, ?_, fun k => ?_⟩
      · rw [List.map_cons, List.map_cons, List.reverse_cons]
        exact hfirst.trans hmoves
      · simp only [List.mem_cons, exists_eq_or_imp, EntityRef.existing.injEq, hgone]
        constructor
        · rintro (rfl | hk)
          · exact ⟨.inl rfl, hkeep⟩
          · exact ⟨.inr hk.1, hk.2⟩
        · rintro ⟨rfl | hk, hnew⟩
          · exact .inl rfl
          · exact .inr ⟨hk, hnew⟩

/-- Nothing is detached if every member is kept. -/
theorem unlinkAbsent_of_kept (h : site.Owns p target i record) {keep : List String}
    (hkeep : ∀ row ∈ site.tables.members site.registry.schema p.resource record p.relationship,
      ∀ j, target.identityOf? row = some j → j.key ∈ keep) (w : Walk) :
    (site.unlinkAbsent p target keep).run.run w = (.ok (), w) := by
  obtain ⟨members, hmembers, hall, -⟩ := h.currentMembers_run hopen w
  have hkept : ∀ m ∈ members, m.reference.key ∈ keep := fun m hm => by
    obtain ⟨k, _, rfl, -, -, hmember, -⟩ := hall m hm
    obtain ⟨row, hrow, j, hj, hkey⟩ := Tables.mem_memberKeys.1 hmember
    have hkeeps := hkeep row hrow j hj
    rwa [hkey] at hkeeps
  unfold unlinkAbsent
  rw [bind_of_ok hmembers]
  clear hmembers hall
  induction members with
  | nil => rfl
  | cons m rest ih =>
    have hfirst : (site.displace p target keep m).run.run w = (.ok (), w) :=
      displace_of_mem (hkept m List.mem_cons_self) w
    exact (bind_of_ok hfirst).trans (ih fun m hm => hkept m (List.mem_cons_of_mem _ hm))

/-- Members that are not kept are detached. -/
theorem unlinkAbsent_run (h : site.Owns p target i record) (hown : p.relationship.join.isForeignKey = false)
    (keep : List String) (w : Walk) :
    ∃ after, ∃ gone : List Identity, (site.unlinkAbsent p target keep).run.run w = (.ok (), after) ∧
      Moves w after (gone.map fun j => .unlink (linkChange p (.existing j)))
        (gone.map fun j => (p.linkKey (.existing j), false)).reverse [] ∧
      (∀ j ∈ gone, ∃ row ∈ site.tables.rowsOf target.name, target.identityOf? row = some j) ∧
      ∀ key, key ∈ gone.map Identity.key ↔ key ∈ site.tables.memberKeys site.registry.schema p.resource
        target record p.relationship ∧ site.hasMember p target record w key = true ∧ key ∉ keep := by
  obtain ⟨members, hmembers, hall, honto⟩ := h.currentMembers_run hopen w
  unfold unlinkAbsent
  rw [bind_of_ok hmembers]
  obtain ⟨after, gone, hrun, hmoves, hgone⟩ := displaceAll_run hopen target hown keep (fun m hm => by
    obtain ⟨j, row, hm, -⟩ := hall m hm
    exact ⟨j, row, hm⟩) w
  refine ⟨after, gone, hrun, hmoves, fun j hj => ?_, fun key => ?_⟩
  · obtain ⟨⟨m, hm, hreference⟩, -⟩ := (hgone j).1 hj
    obtain ⟨k, row, rfl, hrow, hk, -⟩ := hall m hm
    cases hreference
    exact ⟨row, hrow, hk⟩
  · rw [List.mem_map]
    constructor
    · rintro ⟨j, hj, rfl⟩
      obtain ⟨⟨m, hm, hreference⟩, hnew⟩ := (hgone j).1 hj
      obtain ⟨k, row, rfl, -, -, hmember, hstays⟩ := hall m hm
      cases hreference
      exact ⟨hmember, hstays, hnew⟩
    · rintro ⟨hmember, hstays, hnew⟩
      obtain ⟨m, hm, hkey⟩ := honto key hmember hstays
      obtain ⟨k, row, rfl, -⟩ := hall m hm
      exact ⟨k, (hgone k).2 ⟨⟨_, hm, rfl⟩, fun hkeep => hnew (hkey ▸ hkeep)⟩, hkey⟩

end

end Owns

/-- An entity that nothing is written to is where it was. -/
theorem place_unchanged {s : Scope} {k : Known} (hknown : s.known = some k) (members : List (String × Json))
    (w : Walk) : (site.place s members .empty).run.run w = (.ok k.reference, w) := by
  unfold place
  rw [hknown]
  rfl

/-! ## The entity at the top -/

variable {r : Resource} {i : Identity} {record : Record}

/-- A walk that has found the entity at the top. -/
def started (r : Resource) (i : Identity) (record : Record) : Walk :=
  { known := [((r.name, i.key), ⟨.existing i, record, false⟩)] }

/-- The entity at the top as the store has it. -/
def storedRoot (r : Resource) (i : Identity) (record : Record) : Scope :=
  ⟨r, "", .root (.update i), some i, some ⟨.existing i, record, false⟩⟩

/-- What a document is told that names another entity than the one that is updated. -/
def identityIssues (r : Resource) (i : Identity) (members : List (String × Json)) : List Issue :=
  if (r.identityIn? members).any (·.key ≠ i.key)
    then [Defect.identityImmutable.issueAt (identityPath r "")] else []

/-- At the top of an update the entity is found. -/
theorem openObject_update (hopen : site.registry.IsOpen)
    (hr : site.registry.schema.resource? r.name = some r)
    (htypes : ∀ f ∈ r.identityFields, f.type.isExact = true) (hfiled : site.tables.FiledExactly r)
    (hstores : site.tables.Stores r i record) {members : List (String × Json)}
    (hop : Entries.get? DocumentOp.key members = none) :
    (site.openObject r "" (.root (.update i)) members).run.run {} =
      (.ok (.entered none (some i) (some ⟨.existing i, record, false⟩)),
        { started r i record with issues := identityIssues r i members }) := by
  have hread : DocumentOp.ofMembers? members = .ok none := by rw [DocumentOp.ofMembers?, hop]
  have hidentity : (identityOf r "" (.root (.update i)) members).run.run {} =
      (.ok (some i), { issues := identityIssues r i members }) := by
    unfold identityOf identityIssues
    dsimp only [Position.identity?]
    split <;> rfl
  unfold openObject
  rw [bind_of_ok (liftM_ok hread {}), bind_of_ok hidentity]
  dsimp only
  rw [bind_of_ok (lookup_stored hopen hr htypes hfiled hstores rfl)]
  rfl

end WalkSite

end NestedResources
