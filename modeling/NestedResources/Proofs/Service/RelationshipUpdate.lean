import NestedResources.Proofs.Service.Batch
import NestedResources.Proofs.Write.Items

/-!
# Updates of a relationship to several entities

An update walks over the items against the store as it is, with the memberships that it changes on top,
and then its plan is applied command by command. Both agree with a fold over the set of members: a patch
leaves the members as its items say one after the other, and a replacement leaves those whose last item
does not detach them (`WriteOp.members_follow_items`).
-/
namespace NestedResources

/-- The members of a relationship of an entity are those of a set of keys. -/
def Tables.HasMembers (t : Tables) (s : Schema) (r target : Resource) (rel : Relationship) (i : Identity)
    (member : String → Bool) : Prop :=
  ∃ record, t.row? r.name i = some record ∧
    ∀ key, key ∈ t.memberKeys s r target record rel ↔ member key = true

/-- The document of a replacement with the items of one relationship, and besides them only with fields. None
of these is written to a column that decides about members. -/
structure Resource.Replaces (r target : Resource) (rel : Relationship) (record : Record) (items : List Json)
    (members : List (String × Json)) : Prop where
  split : ∃ before rest, members = before ++ (rel.name, .arr items) :: rest ∧
    ∀ e ∈ before ++ rest, r.relationship? e.1 = none
  keeps : ∀ e ∈ members, e.1 ≠ DocumentOp.key
  alone : ∀ values, r.values? (some record) members = some values →
    (∀ c ∈ rel.join.referenced, values.get? c = none) ∧
      (target.name = r.name → ∀ c ∈ rel.join.held, values.get? c = none)

/-- A store that has an entity with its members: rows are under their exact identities, and the target's have
their required columns. -/
structure Tables.Hosts (t : Tables) (s : Schema) (r target : Resource) (rel : Relationship) (i : Identity)
    (record : Record) : Prop where
  types : ∀ f ∈ r.identityFields, f.type.isExact = true
  targetTypes : ∀ f ∈ target.identityFields, f.type.isExact = true
  exact : t.FiledExactly r
  targetExact : t.FiledExactly target
  relates : t.Relates s r rel i record
  identity : r.identityOf? record = some i
  carries : t.Carries target

theorem Tables.Hosts.stores {t : Tables} {s : Schema} {r target : Resource} {rel : Relationship}
    {i : Identity} {record : Record} (h : t.Hosts s r target rel i record) : t.Stores r i record :=
  ⟨h.relates.row, h.identity⟩

/-- A document without the identity fields names no identity. -/
theorem Resource.identityIn?_eq_none {s : Schema} {r : Resource} (hr : s.resource? r.name = some r)
    {members : List (String × Json)} (h : ∀ f ∈ r.identityFields, ∀ e ∈ members, e.1 ≠ f.name) :
    r.identityIn? members = none := by
  cases hin : r.identityIn? members with
  | none => rfl
  | some i =>
    obtain ⟨hne, hdeclared, -⟩ := Schema.faultless_of_resource? hr
    obtain ⟨name, names, hnames⟩ := List.exists_cons_of_ne_nil hne
    obtain ⟨f, hf⟩ := hdeclared name (hnames ▸ List.mem_cons_self)
    have hfield : f ∈ r.identityFields := List.mem_filterMap.2 ⟨name, hnames ▸ List.mem_cons_self, hf⟩
    obtain ⟨v, raw, hraw, -⟩ := Except.exists_of_forall₂ (identityIn?_eq_some hin) hfield
    exact absurd rfl (h f hfield _ (Entries.mem_of_get? hraw))

namespace Progress

variable {s : Schema} {target : Resource} {p q : Progress}

/-- Rows that carry their required columns pass the check at the end of a commit. -/
theorem emptyColumn?_eq_none (htarget : s.resource? target.name = some target)
    (hcarries : p.tables.Carries target) (htouched : ∀ e ∈ p.touched, e.1 = target.name) :
    p.emptyColumn? s = none := by
  unfold emptyColumn?
  rw [List.findSome?_eq_none_iff]
  rintro ⟨resource, key⟩ he
  obtain rfl : resource = target.name := htouched _ he
  dsimp only
  cases hrow : p.tables.rowAt? target.name key with
  | none => rfl
  | some record =>
    have hfull : target.fields.find? (fun f : Field => !f.optional && (record.value? f.column).isNone)
        = none := by
      rw [List.find?_eq_none]
      intro f hf hempty
      rw [Bool.and_eq_true, Bool.not_eq_true', Option.isNone_iff_eq_none] at hempty
      have hset := hcarries key record hrow f hf hempty.1
      rw [hempty.2] at hset
      cases hset
    simp only [Option.bind_eq_bind, Option.bind_some, htarget, hfull, Option.bind_none]

end Progress

namespace WalkSite

open Walking

variable {site : WalkSite} {r target : Resource} {rel : Relationship} {i : Identity} {record : Record}
  {items : List Json} {mentions : List Mention} {w after : Walk} {member : String → Bool}

/-! ## The entity at the top -/

/-- A patch with nothing but the items of a relationship comes down to walking over these. -/
theorem visit_patch (items : List Json) (hopen : site.registry.IsOpen)
    (hr : site.registry.schema.resource? r.name = some r)
    (htypes : ∀ f ∈ r.identityFields, f.type.isExact = true) (hfiled : site.tables.FiledExactly r)
    (hstores : site.tables.Stores r i record) (hrel : r.relationship? rel.name = some rel)
    (hnames : rel.name ≠ DocumentOp.key) :
    (site.visit r "" (.root (.update i)) .patch (.obj [(rel.name, .arr items)])).run.run {} = (do
      site.visitRelationships (storedRoot r i record) (.existing i) .patch [(rel.name, .arr items)]
      pure (some ⟨.existing i, false⟩) : Walking (Option Visited)).run.run (started r i record) := by
  have hop : Entries.get? DocumentOp.key [(rel.name, Json.arr items)] = none := by
    rw [Entries.get?, if_neg hnames, Entries.get?]
  have hnone : r.identityIn? [(rel.name, Json.arr items)] = none := by
    refine Resource.identityIn?_eq_none hr fun f hf e he hname => ?_
    obtain rfl := List.mem_singleton.1 he
    have hfield := (Resource.field?_of_mem_identityFields hf).1
    rw [Schema.relationship?_of_field? hr (hname ▸ hfield)] at hrel
    cases hrel
  have hclean : identityIssues r i [(rel.name, Json.arr items)] = [] := by rw [identityIssues, hnone]; rfl
  rw [visit, bind_of_ok (openObject_update hopen hr htypes hfiled hstores hop), hclean]
  dsimp only
  have hread : (site.readFields (storedRoot r i record) [(rel.name, .arr items)]).run.run
      (started r i record) = (.ok .empty, started r i record) := by
    unfold readFields
    rw [List.foldlM_cons]
    dsimp only
    rw [if_pos (.inr (.inr (Option.isSome_of_eq_some hrel)))]
    rfl
  exact (bind_of_ok hread).trans rfl

/-- The walk of a replacement that ends well has read the fields against the row, planned what they write
over it, and goes on with the relationships. -/
theorem exists_walk_of_replace (hopen : site.registry.IsOpen)
    (hr : site.registry.schema.resource? r.name = some r)
    (htypes : ∀ f ∈ r.identityFields, f.type.isExact = true) (hfiled : site.tables.FiledExactly r)
    (hstores : site.tables.Stores r i record) {members : List (String × Json)}
    (hmembers : ∀ e ∈ members, e.1 ≠ DocumentOp.key) {visited : Option Visited}
    (h : (site.visit r "" (.root (.update i)) .replace (.obj members)).run.run {} = (.ok visited, after)) :
    ∃ values w, (w.issues = [] → r.values? (some record) members = some values) ∧
      w.plan.commands = (if values.isEmpty then [] else [.update r.name (.existing i) values]) ∧
      (∀ e ∈ w.known, e.1 = (r.name, i.key) ∧ e.2.reference = .existing i) ∧
      w.memberships = [] ∧
      (site.visitRelationships (storedRoot r i record) (.existing i) .replace members).run.run w =
        (.ok (), after) := by
  have hop : Entries.get? DocumentOp.key members = none := by
    cases hget : Entries.get? DocumentOp.key members with
    | none => rfl
    | some value => exact absurd rfl (hmembers _ (Entries.mem_of_get? hget))
  rw [visit, bind_of_ok (openObject_update hopen hr htypes hfiled hstores hop)] at h
  dsimp only at h
  obtain ⟨values, read, hread, h₁⟩ := bind_eq_ok h
  obtain ⟨qs, ⟨-, first, hasked⟩, -⟩ := readFields_eq_ok hread
  rw [if_pos (by simp)] at h₁
  obtain ⟨_, required, hrequire, h₂⟩ := bind_eq_ok h₁
  have hrequired : site.Asked [] read required := requireFields_asked hrequire
  obtain ⟨reference, w, hplace, h₃⟩ := bind_eq_ok h₂
  obtain ⟨_, _, hattach, h₄⟩ := bind_eq_ok h₃
  cases hattach
  obtain ⟨_, walked, hwalk, h₅⟩ := bind_eq_ok h₄
  cases h₅
  have hvalues : w.issues = [] → r.values? (some record) members = some values := fun hclean =>
    values?_of_readFields hread (hrequired.clean ((places_of_place hplace).issues.symm.trans hclean))
  obtain ⟨-, more, rfl⟩ := hrequired
  subst hasked
  cases placing_of_place hplace with
  | create hnew _ => cases hnew
  | update hold hchanges _ =>
    cases hold
    refine ⟨values, _, hvalues, by rw [hchanges]; rfl, fun e he => ?_, rfl, hwalk⟩
    rcases List.mem_cons.1 he with rfl | he
    · exact ⟨rfl, rfl⟩
    · obtain rfl := List.mem_singleton.1 he
      exact ⟨rfl, rfl⟩
  | keep hold hempty =>
    cases hold
    refine ⟨values, _, hvalues, by rw [hempty]; rfl, fun e he => ?_, rfl, hwalk⟩
    obtain rfl := List.mem_singleton.1 he
    exact ⟨rfl, rfl⟩

/-! ## Walking over the items -/

/-- The entity at the top as the one around its items. -/
def storedParent (r : Resource) (rel : Relationship) (i : Identity) (record : Record) : Parent :=
  ⟨r, rel, .existing i, some record⟩

section

variable (hs : site.registry.schema.Collects r target rel)
  (hhosts : site.tables.Hosts site.registry.schema r target rel i record)
include hs hhosts

theorem owns_stored : site.Owns (storedParent r rel i record) target i record :=
  ⟨hs.resource, hs.relationship, hs.leads, rfl, hhosts.relates.row⟩

/-- A walk that has met the entity at the top and nothing else stands before the items. -/
theorem collecting_stored
    (hknown : ∀ e ∈ w.known, e.1 = (r.name, i.key) ∧ e.2.reference = .existing i)
    (hmember : ∀ key, key ∈ site.tables.memberKeys site.registry.schema r target record rel ↔
      member key = true) (hmemberships : w.memberships = []) :
    site.Collecting (storedParent r rel i record) target record w member := by
  refine ⟨fun j row hstores k hk => ?_, fun key => ?_⟩
  · obtain ⟨hname, hreference⟩ := hknown _ (mem_of_firstOf? hk)
    have htarget := (owns_stored hs hhosts).resource_target
    obtain rfl : target = r := Schema.eq_of_name htarget hs.resource (congrArg Prod.fst hname)
    obtain rfl : j = i := hstores.eq_of_key hhosts.stores (congrArg Prod.snd hname)
    exact hreference
  · rw [hasMember, hmemberships, Bool.eq_iff_iff, ← hmember key]
    exact decide_eq_true_iff

theorem agrees_started : site.Agrees target (started r i record) := by
  intro j row hstores k hk
  obtain ⟨hkey, rfl⟩ := Prod.mk.inj (List.mem_singleton.1 (mem_of_firstOf? hk))
  have htarget := (owns_stored hs hhosts).resource_target
  obtain rfl : target = r := Schema.eq_of_name htarget hs.resource (congrArg Prod.fst hkey)
  obtain rfl : j = i := hstores.eq_of_key hhosts.stores (congrArg Prod.snd hkey)
  exact hhosts.identity

variable (site) (hopen : site.registry.IsOpen) (hnames : rel.name ≠ DocumentOp.key ∧ rel.name ≠ selfKey)
include hopen hnames

/-- A patch with the items of a relationship that is only read finds an issue. -/
theorem update_patch_readOnly (hreadOnly : rel.readOnly = true) (items : List Json) :
    ∃ after, (site.update r.name i (.obj [(rel.name, .arr items)]) .patch).run.run {} =
      (.ok [.existing i], after) ∧ after.issues ≠ [] := by
  unfold update visitRoot
  rw [bind_of_ok (liftM_ok (Schema.require_eq_ok.2 hs.resource) {})]
  have hvisit := visit_patch items hopen hs.resource hhosts.types hhosts.exact hhosts.stores
    hs.relationship hnames.1
  obtain ⟨between, hissue, hmoves⟩ := issue_run (joinPath (storedRoot r i record).path rel.name)
    (.relationshipReadOnly rel.name) (started r i record)
  have hwalk := (site.visitRelationships_readOnly (s := storedRoot r i record) (.existing i) .patch items
    hs.relationship hnames hreadOnly [] (started r i record)).trans (bind_of_ok hissue)
  rw [visitRelationships] at hwalk
  rw [bind_of_ok hwalk] at hvisit
  rw [bind_of_ok hvisit]
  refine ⟨between, rfl, ?_⟩
  rw [hmoves.issues]
  exact List.cons_ne_nil _ _

variable (hmember : ∀ key, key ∈ site.tables.memberKeys site.registry.schema r target record rel ↔
  member key = true)
include hmember

/-- A patch with the items of a relationship plans what these change. -/
theorem update_patch (hwritable : rel.readOnly = false)
    (hitems : target.SpellsAll site.tables items mentions) :
    ∃ after, (site.update r.name i (.obj [(rel.name, .arr items)]) .patch).run.run {} =
        (.ok [.existing i], after) ∧
      after.plan.commands = (Mention.changes member mentions).map
        (Progress.membershipCommand r rel i) ∧
      (after.issues = [] ↔ Mention.meetsFault member mentions = false ∧
        ∀ m ∈ mentions, m.isRefused = false) := by
  unfold update visitRoot
  rw [bind_of_ok (liftM_ok (Schema.require_eq_ok.2 hs.resource) {})]
  have hvisit := visit_patch items hopen hs.resource hhosts.types hhosts.exact hhosts.stores
    hs.relationship hnames.1
  have howns := owns_stored hs hhosts
  obtain ⟨after, found, kept, hrun, -, hcommands, hissues, -, hiff⟩ := visitItems_run hopen howns hs.many
    hhosts.targetTypes hhosts.targetExact hitems (joinPath (storedRoot r i record).path rel.name) 0
    (collecting_stored hs hhosts (w := started r i record)
      (fun e he => List.mem_singleton.1 he ▸ ⟨rfl, rfl⟩) hmember rfl)
  have hwalk := (site.visitRelationships_items (s := storedRoot r i record) (.existing i) .patch items
    hs.relationship hs.many hnames hwritable hs.leads [] (started r i record)).trans (bind_of_ok hrun)
  simp only [reduceCtorEq, decide_false, Bool.false_and, Bool.false_eq_true, if_false] at hwalk
  rw [visitRelationships] at hwalk
  rw [bind_of_ok hwalk] at hvisit
  rw [bind_of_ok hvisit]
  refine ⟨after, rfl, hcommands, ?_⟩
  rw [hissues]
  exact hiff (agrees_started hs hhosts)

/-- A replacement that ends well plans what it writes to the row and what its items change, and detaches the
members that they do not mention. -/
theorem update_replace (hitems : target.SpellsAll site.tables items mentions)
    {members : List (String × Json)} (hmembers : r.Replaces target rel record items members)
    {roots : List EntityRef}
    (h : (site.update r.name i (.obj members) .replace).run.run {} = (.ok roots, after))
    (hclean : after.issues = []) :
    ∃ values, ∃ gone : List Identity, r.values? (some record) members = some values ∧
      after.plan.commands = (if values.isEmpty then [] else [.update r.name (.existing i) values]) ++
        (Mention.changes member mentions ++ gone.map (·, false)).map
          (Progress.membershipCommand r rel i) ∧
      (∀ j ∈ gone, ∃ row ∈ site.tables.rowsOf target.name, target.identityOf? row = some j) ∧
      ∀ key, key ∈ gone.map Identity.key ↔ member key = true ∧
        mentions.foldl Mention.after member key = true ∧
        ∀ m ∈ mentions, m.stays = true → m.identity.key ≠ key := by
  obtain ⟨_, _, hrequire, h₁⟩ := bind_eq_ok h
  obtain ⟨hresource, rfl⟩ := liftM_eq_ok hrequire
  cases hs.resource.symm.trans (Schema.require_eq_ok.1 hresource)
  obtain ⟨visited, _, hvisit, h₂⟩ := bind_eq_ok h₁
  cases h₂
  obtain ⟨values, w, hvalues, hcommands, hknown, hmemberships, hwalk⟩ := exists_walk_of_replace hopen
    hs.resource hhosts.types hhosts.exact hhosts.stores hmembers.keeps hvisit
  obtain ⟨before, rest, rfl, hother⟩ := hmembers.split
  rw [visitRelationships_alone hother] at hwalk
  have hwritable : rel.readOnly = false := by
    cases hreadOnly : rel.readOnly with
    | false => rfl
    | true =>
      rw [site.visitRelationships_readOnly _ _ _ hs.relationship hnames hreadOnly, visitRelationships]
        at hwalk
      exact absurd hclean (ne_nil_of_issue hwalk)
  rw [site.visitRelationships_items _ _ _ hs.relationship hs.many hnames hwritable hs.leads,
    visitRelationships] at hwalk
  have howns := owns_stored hs hhosts
  obtain ⟨between, found, kept, hrun, hbetween, hplanned, hissues, hkept, -⟩ := visitItems_run hopen howns
    hs.many hhosts.targetTypes hhosts.targetExact hitems (joinPath (storedRoot r i record).path rel.name) 0
    (collecting_stored hs hhosts hknown hmember hmemberships)
  have hdetach := (bind_of_ok hrun).symm.trans hwalk
  rw [if_pos (by rfl)] at hdetach
  obtain ⟨last, gone, hgone, hmoves, hstored, hkeys⟩ := howns.unlinkAbsent_run hopen hs.notOwn kept between
  have hend := (bind_of_ok hgone).symm.trans hdetach
  cases hend
  rw [hmoves.issues, hissues, List.append_nil] at hclean
  refine ⟨values, gone, hvalues (List.append_eq_nil_iff.1 hclean).1, ?_, hstored, fun key => ?_⟩
  · rw [hmoves.commands, hplanned, hcommands, List.append_assoc, List.map_append, List.map_map]
    rfl
  · refine (hkeys key).trans (and_congr (hmember key) ?_)
    rw [hbetween.members, hkept]
    push Not
    rfl

end

end WalkSite

/-! ## Commits -/

/-- Items that a patch reports issues for: those of a relationship that is only read, and those of which
one is a fault or breaks a rule. -/
def Relationship.Refuses (rel : Relationship) (member : String → Bool) (mentions : List Mention) : Prop :=
  rel.readOnly = true ∨ Mention.meetsFault member mentions = true ∨ ∃ m ∈ mentions, m.isRefused = true

namespace WriteOp

variable {g : Registry} {d after : Desk} {r target : Resource} {rel : Relationship}
  {i : Identity} {record : Record} {items : List Json} {mentions : List Mention} {member : String → Bool}

theorem hasMembers_of_holds {s : Schema} {p : Progress} (h : p.Holds s r target rel i member) :
    p.tables.HasMembers s r target rel i member := by
  obtain ⟨record, hrelates, hmember⟩ := h
  exact ⟨record, hrelates.row, hmember⟩

section

variable (ctx : Context) (hopen : g.IsOpen) (hs : g.schema.Collects r target rel)
  (hnames : rel.name ≠ DocumentOp.key ∧ rel.name ≠ selfKey)
  (hhosts : d.store.tables.Hosts g.schema r target rel i record)
  (hmember : ∀ key, key ∈ d.store.tables.memberKeys g.schema r target record rel ↔ member key = true)
  (hitems : target.SpellsAll d.store.tables items mentions)
include hopen hs hnames hhosts hmember hitems

/-- A patch with items that are not refused leaves the members as the items say one after the other. -/
theorem hasMembers_of_patch (haccepted : ¬rel.Refuses member mentions) : ∃ o after,
    Serving.on (Serving.commit g ctx (update r.name i (.obj [(rel.name, .arr items)]) .patch).walk) d =
      (.ok o, after) ∧
    after.store.tables.HasMembers g.schema r target rel i (mentions.foldl Mention.after member) := by
  simp only [Relationship.Refuses, not_or, not_exists, not_and, Bool.not_eq_true] at haccepted
  obtain ⟨hwritable, hfaultless, hvalid⟩ := haccepted
  obtain ⟨w, hrun, hcommands, hissues⟩ := WalkSite.update_patch ⟨g, ctx, d.store.tables⟩ hs hhosts
    hopen hnames hmember hwritable hitems
  obtain ⟨q, hplan, hholds, hkeeps⟩ := Progress.Holds.changes (p := { store := d.store })
    ⟨record, hhosts.relates, hmember⟩ hs (Resource.SpellsAll.isSome_row? hitems)
  have hfull : q.emptyColumn? g.schema = none :=
    Progress.emptyColumn?_eq_none (Schema.resource?_of_target? hs.leads) (hkeeps.carries hhosts.carries)
      fun e he =>
      (hkeeps.touched e he).elim (fun hnone => by cases hnone) id
  rw [Mention.foldl_changes] at hholds
  exact ⟨_, _, Serving.commit_of_plan hrun (hissues.2 ⟨hfaultless, hvalid⟩) (hcommands ▸ hplan) hfull,
    hasMembers_of_holds hholds⟩

/-- A patch with items that are refused reports issues. -/
theorem issues_of_patch (hrefused : rel.Refuses member mentions) : ∃ issues after,
    Serving.on (Serving.commit g ctx (update r.name i (.obj [(rel.name, .arr items)]) .patch).walk) d =
      (.error (.unprocessable issues), after) := by
  cases hreadOnly : rel.readOnly with
  | true =>
    obtain ⟨w, hrun, hissues⟩ := WalkSite.update_patch_readOnly ⟨g, ctx, d.store.tables⟩ hs
      hhosts hopen hnames hreadOnly items
    exact ⟨_, _, Serving.commit_of_issues hrun hissues⟩
  | false =>
    obtain ⟨w, hrun, -, hissues⟩ := WalkSite.update_patch ⟨g, ctx, d.store.tables⟩ hs hhosts hopen
      hnames hmember hreadOnly hitems
    refine ⟨_, _, Serving.commit_of_issues hrun fun hclean => ?_⟩
    obtain ⟨hfaultless, hvalid⟩ := hissues.1 hclean
    rcases hrefused with h | h | ⟨m, hm, h⟩
    · cases hreadOnly.symm.trans h
    · cases hfaultless.symm.trans h
    · cases (hvalid m hm).symm.trans h

/-- A replacement that succeeds leaves those whose last item does not detach them. -/
theorem hasMembers_of_replace {members : List (String × Json)} {o : Outcome}
    (hmembers : r.Replaces target rel record items members)
    (hok : Serving.on (Serving.commit g ctx (update r.name i (.obj members) .replace).walk) d =
      (.ok o, after)) :
    after.store.tables.HasMembers g.schema r target rel i fun key =>
      (mentions.filter (·.identity.key = key)).getLast?.any Mention.stays := by
  obtain ⟨roots, w, p, hrun, hclean, hplan, hstore⟩ := Serving.exists_progress_of_commit_ok hok
  obtain ⟨values, gone, hvalues, hcommands, hstored, hgone⟩ := WalkSite.update_replace
    ⟨g, ctx, d.store.tables⟩ hs hhosts hopen hnames hmember hitems hmembers hrun hclean
  rw [hcommands, List.foldlM_append] at hplan
  obtain ⟨q, hupdate, hchanges⟩ := Except.bind_eq_ok.1 hplan
  obtain ⟨hreferenced, hheld⟩ := hmembers.alone values hvalues
  have hstart : ({ store := d.store } : Progress).Holds g.schema r target rel i member :=
    ⟨record, hhosts.relates, hmember⟩
  have hwritten : q.Holds g.schema r target rel i member ∧ ∀ key,
      (d.store.tables.rowAt? target.name key).isSome = true →
        (q.tables.rowAt? target.name key).isSome = true := by
    split at hupdate
    · cases hupdate
      exact ⟨hstart, fun _ h => h⟩
    · rw [List.foldlM_cons] at hupdate
      obtain ⟨q', happly, hdone⟩ := Except.bind_eq_ok.1 hupdate
      cases hdone
      exact hstart.update hs hreferenced hheld happly
  obtain ⟨hq, hkept⟩ := hwritten
  have hrows : ∀ c ∈ Mention.changes member mentions ++ gone.map (·, false),
      (q.tables.row? target.name c.1).isSome = true := by
    intro c hc
    rcases List.mem_append.1 hc with hc | hc
    · exact hkept _ (Resource.SpellsAll.isSome_row? hitems c hc)
    · obtain ⟨j, hj, rfl⟩ := List.mem_map.1 hc
      obtain ⟨row, hmem, hidentity⟩ := hstored j hj
      obtain ⟨k, hk, hrow⟩ := hhosts.relates.filed.row?_of_mem (Schema.resource?_of_target? hs.leads) hmem
      cases hidentity.symm.trans hk
      exact hkept _ (Option.isSome_of_eq_some hrow)
  obtain ⟨q', hrun', hholds, -⟩ := hq.changes hs hrows
  cases hchanges.symm.trans hrun'
  rw [List.foldl_append, Mention.foldl_changes] at hholds
  obtain ⟨record', hrelates, hmember'⟩ := hholds
  rw [hstore]
  refine ⟨record', hrelates.row, fun key => (hmember' key).trans ?_⟩
  rw [Mention.foldl_detach_absent hgone]

end

/-- Membership of a relationship to several entities follows its items. A patch reports issues iff its items
are refused, and leaves the members that they say one after the other; a replacement that succeeds leaves
those whose last item does not detach them. -/
theorem members_follow_items (ctx : Context) (hopen : g.IsOpen) (hs : g.schema.Collects r target rel)
    (hnames : rel.name ≠ DocumentOp.key ∧ rel.name ≠ selfKey)
    (hhosts : d.store.tables.Hosts g.schema r target rel i record)
    (hmembers : d.store.tables.HasMembers g.schema r target rel i member)
    (hitems : target.SpellsAll d.store.tables items mentions) :
    ((∃ issues after, Serving.on (Serving.commit g ctx
        (update r.name i (.obj [(rel.name, .arr items)]) .patch).walk) d =
          (.error (.unprocessable issues), after)) ↔ rel.Refuses member mentions) ∧
    (¬rel.Refuses member mentions → ∃ o after, Serving.on (Serving.commit g ctx
        (update r.name i (.obj [(rel.name, .arr items)]) .patch).walk) d = (.ok o, after) ∧
      after.store.tables.HasMembers g.schema r target rel i (mentions.foldl Mention.after member)) ∧
    ∀ members o after, r.Replaces target rel record items members →
      Serving.on (Serving.commit g ctx (update r.name i (.obj members) .replace).walk) d = (.ok o, after) →
      after.store.tables.HasMembers g.schema r target rel i fun key =>
        (mentions.filter (·.identity.key = key)).getLast?.any Mention.stays := by
  obtain ⟨record', hrow, hmember⟩ := hmembers
  cases hhosts.relates.row.symm.trans hrow
  have hpatch := hasMembers_of_patch ctx hopen hs hnames hhosts hmember hitems
  refine ⟨⟨fun ⟨issues, after, herror⟩ => ?_, issues_of_patch ctx hopen hs hnames hhosts hmember hitems⟩,
    hpatch,
    fun members o after => hasMembers_of_replace ctx hopen hs hnames hhosts hmember hitems⟩
  by_contra haccepted
  obtain ⟨o, after', hok, -⟩ := hpatch haccepted
  cases hok.symm.trans herror

end WriteOp

namespace Music

/-- Items for those who report to the second employee: the sixth one comes, the third one goes and comes
back, and the fourth one stays. -/
def reportItems : List Json := [
  .obj [("employee_id", .int 6), ("$op", .str "add")],
  .obj [("$op", .str "remove"), ("employee_id", .int 3)],
  .obj [("employee_id", .int 4)],
  .obj [("employee_id", .int 3), ("$op", .str "update")]]

def reportMentions : List Mention := [
  ⟨⟨[.int 6]⟩, some .add, true⟩, ⟨⟨[.int 3]⟩, some .remove, true⟩, ⟨⟨[.int 4]⟩, none, true⟩,
  ⟨⟨[.int 3]⟩, some .update, true⟩]

/-- The relationship from employees to those who report to them. -/
def reports : Relationship where
  name := "reports"
  target := "employees"
  cardinality := .oneToMany
  join := .reverse ["employee_id"] ["reports_to"]
  inverse := some "manager"

theorem carries_staffDesk : staffDesk.store.tables.Carries employees := by
  have hfull : ∀ record ∈ staffDesk.store.tables.rowsOf "employees", ∀ f ∈ employees.fields,
      f.optional = false → (record.value? f.column).isSome = true := by decide +kernel
  exact fun key record hrow => hfull record (Tables.mem_rowsOf.2 ⟨key, hrow⟩)

theorem collects_reports : openStaff.schema.Collects employees employees reports where
  resource := by decide +kernel
  relationship := by decide +kernel
  leads := by decide +kernel
  many := rfl
  detaches := rfl
  notOwn := rfl
  once := by decide +kernel
  notIdentity := by decide +kernel
  notReferenced := fun _ => by decide +kernel
  optional := by decide +kernel

/-- The second employee with those who report to her. -/
theorem hosts_staffDesk : staffDesk.store.tables.Hosts openStaff.schema employees employees reports
    ⟨[.int 2]⟩ employeeRows[1].record where
  types := by decide +kernel
  targetTypes := by decide +kernel
  exact := filedExactly_staffDesk
  targetExact := filedExactly_staffDesk
  relates :=
    ⟨filed_staffTables (by decide +kernel), rfl, by decide +kernel,
      fun _ _ _ h => by cases h⟩
  identity := rfl
  carries := carries_staffDesk

theorem hasMembers_staffDesk : staffDesk.store.tables.HasMembers openStaff.schema employees employees reports
    ⟨[.int 2]⟩ fun key => decide (key ∈ ["3", "4", "5"]) := by
  have hkeys : staffDesk.store.tables.memberKeys openStaff.schema employees employees employeeRows[1].record
      reports = ["3", "4", "5"] := by decide +kernel
  exact ⟨_, hosts_staffDesk.relates.row, fun key => by rw [hkeys, decide_eq_true_iff]⟩

theorem spells_reportItems :
    employees.SpellsAll staffDesk.store.tables reportItems reportMentions := by
  refine .cons ⟨_, rfl, ?_⟩ (.cons ⟨_, rfl, ?_⟩ (.cons ⟨_, rfl, ?_⟩ (.cons ⟨_, rfl, ?_⟩ .nil)))
  · exact ⟨by decide +kernel, by decide +kernel, rfl, rfl, ⟨_, rfl, rfl⟩, by decide +kernel⟩
  · exact ⟨by decide +kernel, by decide +kernel, rfl, rfl, ⟨_, rfl, rfl⟩, by decide +kernel⟩
  · exact ⟨by decide +kernel, by decide +kernel, rfl, rfl, ⟨_, rfl, rfl⟩, by decide +kernel⟩
  · exact ⟨by decide +kernel, by decide +kernel, rfl, rfl, ⟨_, rfl, rfl⟩, by decide +kernel⟩

theorem isOpen_openStaff : openStaff.IsOpen :=
  ⟨fun _ h => (by cases h), fun _ h => (by cases h)⟩

def updateReports (g : Registry) (items : List Json) : Serving Outcome :=
  Serving.commit g ⟨.empty⟩
    (WriteOp.update "employees" ⟨[.int 2]⟩ (.obj [("reports", .arr items)]) .patch).walk

/-- The sixth employee has come, and all the others have stayed. -/
theorem reports_follow_items : ∃ o after member,
    (updateReports openStaff reportItems).on staffDesk = (.ok o, after) ∧
    after.store.tables.HasMembers openStaff.schema employees employees reports ⟨[.int 2]⟩ member ∧
    ∀ key ∈ ["1", "2", "3", "4", "5", "6"], member key = decide (key ∈ ["3", "4", "5", "6"]) := by
  have haccepted : ¬reports.Refuses (fun key => decide (key ∈ ["3", "4", "5"])) reportMentions := by
    rintro (h | h | ⟨m, hm, h⟩)
    · cases h
    · revert h
      decide +kernel
    · revert m
      decide +kernel
  obtain ⟨o, after, hok, hmembers⟩ := (WriteOp.members_follow_items ⟨.empty⟩ isOpen_openStaff
    collects_reports (by decide +kernel) hosts_staffDesk hasMembers_staffDesk spells_reportItems).2.1
      haccepted
  exact ⟨o, after, _, hok, hmembers, by decide +kernel⟩

/-- Employees whose reports are only read. -/
def overseen : Resource :=
  { employees with
    relationships := employees.relationships.map fun rel =>
      if rel.isMany then { rel with readOnly := true } else rel }

def overseenSchema : Schema where
  table := .ofList [("employees", overseen)]
  named := by decide +kernel
  faultless := by decide +kernel

/-- An item that is no fault is refused where the relationship is only read. -/
theorem readOnly_reports_refused :
    (∀ member, Mention.meetsFault member [⟨⟨[.int 6]⟩, none, true⟩] = false) ∧
      (updateReports { openStaff with schema := overseenSchema } [.obj [("employee_id", .int 6)]]).on
          staffDesk = (.error (.unprocessable
            [(Defect.relationshipReadOnly "reports").issueAt "reports"]), staffDesk) :=
  ⟨fun _ => rfl, rfl⟩

end Music

end NestedResources
