import NestedResources.Gate.Rules
import NestedResources.Proofs.Write.Hidden

/-!
# Every planned write was authorised

The log of a write falls into parts, one for each command and in the same order, and each part has the
answers that its command needs. Members that a to-one relationship of a stored entity gives up for
another were asked about too, as far as keys tell stored entities from those that the plan creates.
-/
namespace NestedResources

namespace WalkSite

variable (site : WalkSite)

/-! ## What a command needs -/

/-- Whether a gate has allowed a change. -/
def Allowed (log : List Consultation) (gate : GateRef × Gate) (asks : Change → Prop) : Prop :=
  ∃ change, asks change ∧ gate.2.permits change site.ctx = true ∧
    (⟨gate.1, change, true⟩ : Consultation) ∈ log

/-- Whether the gate of a resource has allowed an entity to be written, and each value to be written
into its field. The changes are about the entity as `about` tells. -/
def WriteAllowed (log : List Consultation) (resource : String) (action : Action) (values : Record)
    (about : Resource → Option Record → Prop) : Prop :=
  ∃ r, site.registry.schema.resource? resource = some r ∧
    site.Allowed log (site.registry.gateWithRef resource) (fun change =>
      change.resource = r ∧ change.subject = .entity ∧ change.action = action ∧
        about r change.existing) ∧
    ∀ column v, values.get? column = some v → ∃ f, r.field? f.name = some f ∧ f.column = column ∧
      site.Allowed log (site.registry.gateWithRef resource) fun change =>
        change.resource = r ∧ change.subject = .field f.name ∧ change.action = action ∧
          change.value = some v ∧ about r change.existing

/-- Whether the gate of a relationship has allowed a membership to change, and the gate of its inverse
too if there is one. -/
def MembershipAllowed (log : List Consultation) (commands : List Command) (c : LinkChange)
    (action : Action) : Prop :=
  ∃ r rel target, site.registry.schema.resource? c.resource = some r ∧
    r.relationship? c.relationship = some rel ∧ site.registry.schema.target? rel = some target ∧
    site.Allowed log (site.registry.relationshipGateWithRef r.name rel.name) (fun change =>
      change.resource = r ∧ change.subject = .relationship rel.name ∧ change.action = action ∧
        site.Knows commands r change.existing c.parent) ∧
    ∀ inverse, rel.inverse.bind target.relationship? = some inverse →
      site.Allowed log (site.registry.relationshipGateWithRef target.name inverse.name) fun change =>
        change.resource = target ∧ change.subject = .relationship inverse.name ∧
          change.action = action ∧ site.Knows commands target change.existing c.child

/-- Whether a log has what a command needs. -/
def Consented (log : List Consultation) (commands : List Command) : Command → Prop
  | .create _ resource values =>
    site.WriteAllowed log resource .create values fun _ stored => stored = none
  | .update resource target values =>
    site.WriteAllowed log resource .update values fun r stored => site.Knows commands r stored target
  | .delete resource target =>
    site.WriteAllowed log resource .delete .empty fun r stored => site.Knows commands r stored target
  | .link c => site.MembershipAllowed log commands c .add
  | .unlink c => site.MembershipAllowed log commands c .remove

/-- A log that falls into parts, in which each command has its own part with what it needs. -/
inductive Covered : List Consultation → List Command → Prop
  | none : Covered [] []
  | other {log : List Consultation} {commands : List Command} (more : List Consultation)
      (h : Covered log commands) (hallowed : ∀ x ∈ more, x.allowed = true) :
      Covered (log ++ more) commands
  | own {log : List Consultation} {commands : List Command} {c : Command} {part : List Consultation}
      (h : Covered log commands) (hpart : site.Consented part commands c)
      (hallowed : ∀ x ∈ part, x.allowed = true) :
      Covered (log ++ part) (commands ++ [c])

variable {site} {log : List Consultation} {commands : List Command}

theorem allowed_of_mem {qs : List Question} {q : Question} {asks : Change → Prop} (hq : q ∈ qs)
    (hallowed : ∀ q ∈ qs, q.allowed site.ctx = true) (hasks : asks q.change) :
    site.Allowed (qs.map (·.answer site.ctx)) q.gate asks := by
  refine ⟨q.change, hasks, hallowed q hq, List.mem_map.2 ⟨q, hq, ?_⟩⟩
  rw [Question.answer, hallowed q hq]

/-- The questions about an entity and its fields are all that writing it needs. -/
theorem writeAllowed_of_assigns {s : Scope} {values : Record} {fields : List Question}
    {members : List (String × Json)} {action : Action} (about : Resource → Option Record → Prop)
    (hr : site.registry.schema.resource? s.resource.name = some s.resource)
    (haction : s.action = action) (habout : about s.resource s.existing)
    (hfields : site.registry.Assigns s values fields)
    (hallowed : ∀ q ∈ fields ++ [site.registry.entityQuestion s members], q.allowed site.ctx = true) :
    site.WriteAllowed ((fields ++ [site.registry.entityQuestion s members]).map (·.answer site.ctx))
      s.resource.name action values about := by
  refine ⟨s.resource, hr, ?_, fun column v hv => ?_⟩
  · exact allowed_of_mem (List.mem_append_right _ List.mem_cons_self) hallowed
      ⟨rfl, rfl, haction, habout⟩
  · obtain ⟨f, hf, hcolumn, hmem⟩ := hfields.exists_question hv
    exact ⟨f, hf, hcolumn, allowed_of_mem (List.mem_append_left _ hmem) hallowed
      ⟨rfl, rfl, haction, rfl, habout⟩⟩

/-- The questions to both ends of a relationship are all that changing a membership needs. -/
theorem membershipAllowed_of_questions {p : Parent} {target : Resource} {child : Known}
    {action : Action} {value : Option Json} (hp : site.Stands commands p)
    (htarget : site.registry.schema.target? p.relationship = some target)
    (hchild : site.Knows commands target child.existing? child.reference)
    (hallowed : ∀ q ∈ site.registry.relationshipQuestions p target child.existing? action value,
      q.allowed site.ctx = true) :
    site.MembershipAllowed ((site.registry.relationshipQuestions p target child.existing? action
      value).map (·.answer site.ctx)) commands (linkChange p child.reference) action := by
  refine ⟨p.resource, p.relationship, target, hp.resource, hp.relationship, htarget, ?_,
    fun inverse hinverse => ?_⟩
  · exact allowed_of_mem List.mem_cons_self hallowed ⟨rfl, rfl, rfl, hp.knows⟩
  · exact allowed_of_mem (Registry.mem_relationshipQuestions_of_inverse hinverse) hallowed
      ⟨rfl, rfl, rfl, hchild⟩

theorem Plans.consented {c : Command} {qs : List Question} (h : site.Plans log commands c qs)
    (hallowed : ∀ q ∈ qs, q.allowed site.ctx = true) :
    site.Consented (qs.map (·.answer site.ctx)) commands c := by
  cases h with
  | @create s _ _ _ hr hnew hfields =>
    have haction : s.action = .create := by simp [Scope.action, Scope.creating, hnew]
    have hexisting : s.existing = none := by simp [Scope.existing, hnew]
    exact writeAllowed_of_assigns (fun _ stored => stored = none) hr haction hexisting hfields hallowed
  | @update s k _ _ _ hr hold hknows hfields =>
    have haction : s.action = .update := by simp [Scope.action, Scope.creating, hold]
    have hexisting : site.Knows commands s.resource s.existing k.reference := by
      simpa [Scope.existing, hold] using hknows
    exact writeAllowed_of_assigns (fun r stored => site.Knows commands r stored k.reference) hr haction
      hexisting hfields hallowed
  | @delete r k hr hknows =>
    exact ⟨r, hr, allowed_of_mem List.mem_cons_self hallowed ⟨rfl, rfl, rfl, hknows⟩,
      fun column v hv => by cases hv⟩
  | link hp htarget hchild _ => exact membershipAllowed_of_questions hp htarget hchild hallowed
  | unlink hp htarget hchild => exact membershipAllowed_of_questions hp htarget hchild hallowed

theorem Authorised.covered (h : site.Authorised log commands) : site.Covered log commands := by
  have hanswers : ∀ {qs : List Question}, (∀ q ∈ qs, q.allowed site.ctx = true) →
      ∀ x ∈ qs.map (·.answer site.ctx), x.allowed = true := by
    intro qs hallowed x hx
    obtain ⟨q, hq, rfl⟩ := List.mem_map.1 hx
    exact hallowed q hq
  induction h with
  | none => exact .none
  | asked _ hallowed ih => exact ih.other _ (hanswers hallowed)
  | planned _ hplans hallowed ih => exact ih.own (hplans.consented hallowed) (hanswers hallowed)

/-! ## Members that are given up -/

/-- Whether both ends have allowed that the member of a relationship of a stored entity is removed,
where the entities are told by their keys. -/
def RemovalAllowed (site : WalkSite) (log : List Consultation) (r : Resource) (rel : Relationship)
    (parent member : String) : Prop :=
  ∃ target i record j child value, site.registry.schema.target? rel = some target ∧
    i.key = parent ∧ site.Shows r i record ∧ j.key = member ∧ site.Shows target j child ∧
    ∀ q ∈ site.registry.relationshipQuestions ⟨r, rel, .existing i, some record⟩ target (some child)
      .remove value, q.allowed site.ctx = true ∧ q.answer site.ctx ∈ log

/-- Whether every visible member that a new link of a to-one relationship displaces has been asked
about, among the stored entities with keys that are told apart. -/
def AsksDisplaced (site : WalkSite) (log : List Consultation) (commands : List Command)
    (told : String → Prop) : Prop :=
  ∀ c parent, .link c ∈ commands → c.parent = .existing parent → ∀ r rel target,
    site.registry.schema.resource? c.resource = some r → r.relationship? c.relationship = some rel →
    site.registry.schema.target? rel = some target → rel.isMany = false →
      ∀ i, site.Member r rel parent target i → c.child.existing?.map Identity.key ≠ some i.key →
        told parent.key → told i.key → site.RemovalAllowed log r rel parent.key i.key

/-- Whether a key is not that of an entity which is still to be created. -/
def ToldApart (key : String) : Prop := ∀ slot, key ≠ (EntityRef.pending slot).key

theorem Removed.removalAllowed {r : Resource} {rel : Relationship}
    (hr : site.registry.schema.resource? r.name = some r) (hrel : r.relationship? rel.name = some rel)
    {parent member : String} (h : site.Removed log commands ⟨r.name, rel.name, parent, member⟩)
    (hparent : ToldApart parent) (hmember : ToldApart member) :
    site.RemovalAllowed log r rel parent member := by
  obtain ⟨⟨owner, via, reference, existing⟩, target, ⟨childReference, childRecord, created⟩, value, hkey,
    hp, htarget, hchild, hasked⟩ := h
  obtain ⟨howner, hvia, hreference, hchildReference⟩ := LinkKey.mk.inj hkey
  obtain rfl : owner = r := Schema.eq_of_name hp.resource hr howner
  obtain rfl : via = rel := by
    have hfound := hp.relationship
    rw [show via.name = rel.name from hvia, hrel] at hfound
    exact (Option.some.inj hfound).symm
  cases reference with
  | pending slot => exact absurd hreference.symm (hparent slot)
  | existing i =>
    cases childReference with
    | pending slot => exact absurd hchildReference.symm (hmember slot)
    | existing j =>
      obtain ⟨record, hrecord, hshows⟩ := hp.knows
      obtain ⟨childShown, hchildRecord, hchildShows⟩ := hchild
      cases hrecord
      rw [hchildRecord] at hasked
      exact ⟨target, i, record, j, childShown, value, htarget, hreference, hshows, hchildReference,
        hchildShows, hasked⟩

theorem ToldApart.key_ne {i : Identity} (h : ToldApart i.key) {ref : EntityRef}
    (hother : ref.existing?.map Identity.key ≠ some i.key) : i.key ≠ ref.key := by
  cases ref with
  | pending slot => exact h slot
  | existing j => exact fun heq => hother (congrArg some heq.symm)

/-- What a plan gives up for a new link was asked about when the link was planned. -/
theorem Authorised.asksDisplaced (h : site.Authorised log commands) :
    site.AsksDisplaced log commands ToldApart := by
  intro c parent hc hparent r rel target hr hrel htarget hone i hi hne hkey hmember
  have hname : r.name = c.resource := Schema.name_of_resource? hr
  have hrelname : rel.name = c.relationship := Resource.name_of_relationship? hrel
  suffices hremoved : site.Removed log commands ⟨r.name, rel.name, parent.key, i.key⟩ from
    hremoved.removalAllowed (hname.symm ▸ hr) (hrelname.symm ▸ hrel) hkey hmember
  induction h with
  | none => cases hc
  | asked _ _ ih => exact (ih hc).mono (fun _ h => h) fun x hx => List.mem_append_left _ hx
  | planned _ hplans _ ih =>
    have hgrows : ∀ {commands : List Command} {c : Command}, ∀ x ∈ commands, x ∈ commands ++ [c] :=
      fun x hx => List.mem_append_left _ hx
    rcases List.mem_append.1 hc with hc | hc
    · exact (ih hc).mono hgrows fun x hx => List.mem_append_left _ hx
    · cases List.mem_singleton.1 hc
      cases hplans with
      | @link p target' child _ hp htarget' hchild hdisplaced =>
        cases hr.symm.trans hp.resource
        cases hrel.symm.trans hp.relationship
        cases htarget.symm.trans htarget'
        have hremoved := hdisplaced hone parent hparent i hi (hmember.key_ne hne)
        have hkeyed : p.linkKey (.existing i) =
            ⟨p.resource.name, p.relationship.name, parent.key, i.key⟩ := by
          rw [Parent.linkKey, show p.reference = .existing parent from hparent]
          rfl
        rw [hkeyed] at hremoved
        exact hremoved.mono hgrows fun x hx => List.mem_append_left _ hx

end WalkSite

namespace WriteOp

/-- Whatever a write plans its gates have allowed: the log of the walk falls into parts, one for each
command, and each command has in its part what it needs. Both ends have allowed every removal of a
visible member that a to-one relationship gives up for another one, if keys tell the entities from
those still to be created. -/
theorem plan_authorised (op : WriteOp) (site : WalkSite) {roots : List EntityRef} {w : Walk}
    (h : (op.walk site).run.run {} = (.ok roots, w)) :
    site.Covered w.consulted w.plan.commands ∧
      site.AsksDisplaced w.consulted w.plan.commands WalkSite.ToldApart :=
  ⟨(sound h).authorised.covered, (sound h).authorised.asksDisplaced⟩

end WriteOp

namespace Music

/-! ## A key that looks like that of an entity to be created -/

theorem plan_authorised_staff :
    ∃ roots w, (promote.walk ⟨staff, asUser 2, staffTables employeeRows⟩).run.run {} = (.ok roots, w) ∧
      w.plan.commands.length = 1 ∧
      WalkSite.Covered ⟨staff, asUser 2, staffTables employeeRows⟩ w.consulted w.plan.commands := by
  have hok : ((promote.walk ⟨staff, asUser 2, staffTables employeeRows⟩).run.run {}).1.isOk := by
    decide +kernel
  obtain ⟨roots, hroots⟩ := Except.exists_of_isOk hok
  exact ⟨roots, _, Prod.ext hroots rfl, by decide +kernel,
    (WriteOp.plan_authorised promote ⟨staff, asUser 2, staffTables employeeRows⟩
      (Prod.ext hroots rfl)).1⟩

/-- The artist of an album, told by a code. -/
def labelArtist : Relationship where
  name := "artist"
  target := "artists"
  cardinality := .manyToOne
  join := .foreignKey ["artist_id"] ["artist_id"]

def labelAlbums : Resource where
  name := "albums"
  identity := ["album_id"]
  fields := [field "album_id" .integer, { field "artist_id" .string with optional := true }]
  relationships := [labelArtist]

def codedArtists : Resource where
  name := "artists"
  identity := ["artist_id"]
  fields := [field "artist_id" .string]

/-- Nobody takes the artist from an album that is there. -/
def keepsArtists : RuleGate where
  denied := [{ subject := some (.relationship "artist"), action := some .remove, existing := some true }]

def labels : Registry where
  schema := {
    table := .ofList [("albums", labelAlbums), ("artists", codedArtists)]
    named := by decide +kernel
    faultless := by decide +kernel }
  gates := [("albums", keepsArtists.toGate)]
  relationshipGates := []

/-- One album, by the artist with a code. -/
def labelTables (code : String) : Tables :=
  (Tables.empty.putRow "albums" "1" (.ofList [("album_id", .int 1), ("artist_id", .str code)])).putRow
    "artists" code (.ofList [("artist_id", .str code)])

def labelSite (code : String) : WalkSite := ⟨labels, ⟨.empty⟩, labelTables code⟩

/-- Gives the album to an artist who is not there yet. -/
def newArtist : WriteOp :=
  .update "albums" ⟨[.int 1]⟩ (.obj [("artist", .obj [("artist_id", .str "new")])]) .patch

def labelCommit (code : String) : Except Error Outcome :=
  ((Serving.commit labels ⟨.empty⟩ newArtist.walk).on ⟨⟨labelTables code, 0⟩, []⟩).1

/-- An artist whose code is the key of the first entity that a plan creates loses the album, and no
gate is asked about it. For any other artist the write is refused. -/
theorem newArtist_not_asked :
    (labelCommit "#pending/0").isOk = true ∧
      (∃ roots w, (newArtist.walk (labelSite "#pending/0")).run.run {} = (.ok roots, w) ∧
        ¬(labelSite "#pending/0").AsksDisplaced w.consulted w.plan.commands fun _ => True) ∧
      labelCommit "old" = .error (.denied "albums" (.change .remove (.relationship "artist"))) := by
  refine ⟨by decide +kernel, ?_, rfl⟩
  have hok : ((newArtist.walk (labelSite "#pending/0")).run.run {}).1.isOk := by decide +kernel
  obtain ⟨roots, hroots⟩ := Except.exists_of_isOk hok
  refine ⟨roots, _, Prod.ext hroots rfl, fun hasks => ?_⟩
  have halbums : labels.schema.resource? "albums" = some labelAlbums := by decide +kernel
  have hmember : (labelSite "#pending/0").Member labelAlbums labelArtist ⟨[.int 1]⟩ codedArtists
      ⟨[.str "#pending/0"]⟩ :=
    ⟨.ofList [("artist_id", .str "#pending/0")], none, .head _, rfl, rfl, by decide +kernel, rfl⟩
  obtain ⟨target, i, record, j, child, value, -, -, -, -, -, hasked⟩ :=
    hasks ⟨"albums", "artist", .existing ⟨[.int 1]⟩, .pending 0⟩ ⟨[.int 1]⟩
      (.tail _ (.head _)) rfl labelAlbums labelArtist codedArtists
      halbums (by decide +kernel) (by decide +kernel) (by decide +kernel) ⟨[.str "#pending/0"]⟩ hmember
      (by decide +kernel) trivial trivial
  have hdenied := (hasked _ List.mem_cons_self).1
  cases hdenied

end Music

end NestedResources
