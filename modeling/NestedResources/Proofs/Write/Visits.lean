import NestedResources.Proofs.Write.Moves

/-!
# A walk over documents is a sequence of steps

An object is opened, its fields are read, its entity is placed and attached, and its relationships
are walked in turn. By induction over documents every walk of a write is a sequence of steps, so what
holds of one step holds of whole writes (`WriteOp.sound`).
-/
namespace NestedResources

namespace WalkSite

open Walking

variable {site : WalkSite} {w after : Walk}

/-! ## Objects -/

theorem identityOf_steps {r : Resource} {path : String} {position : Position}
    {members : List (String × Json)} {found : Option Identity}
    (h : (identityOf r path position members).run.run w = (.ok found, after)) :
    site.Steps w after := by
  unfold identityOf at h
  dsimp only at h
  split at h
  · cases h
    exact .refl
  · split at h
    · obtain ⟨_, _, hissue, h⟩ := bind_eq_ok h
      cases h
      exact issue_steps hissue
    · cases h
      exact .refl

/-- Where a document may stand: at the top, or below a parent that leads to its resource. -/
def Admits (site : WalkSite) (commands : List Command) (r : Resource) : Position → Prop
  | .root _ => True
  | .nested p => site.Stands commands p ∧ site.registry.schema.target? p.relationship = some r

theorem admits_root (commands : List Command) (r : Resource) (root : Root) :
    site.Admits commands r (.root root) := trivial

theorem Admits.mono {commands others : List Command} {r : Resource} {position : Position}
    (h : ∀ c ∈ commands, c ∈ others) (hp : site.Admits commands r position) :
    site.Admits others r position := by
  cases position with
  | root root => trivial
  | nested p => exact ⟨hp.1.mono h, hp.2⟩

/-- Whether an entity of a resource may be referred to. -/
def MayRefer (site : WalkSite) (commands : List Command) (r : Resource) (ref : EntityRef) : Prop :=
  ∃ stored, site.Knows commands r stored ref

theorem MayRefer.mono {commands others : List Command} {r : Resource} {ref : EntityRef}
    (h : ∀ c ∈ commands, c ∈ others) (href : site.MayRefer commands r ref) : site.MayRefer others r ref :=
  href.imp fun _ hknows => hknows.mono h

/-- The entity of an object may be referred to: once it is settled, and before it is written if it is known. -/
def Enters (site : WalkSite) (commands : List Command) (r : Resource) : Opened → Prop
  | .settled visited => ∀ v ∈ visited, site.MayRefer commands r v.reference
  | .entered _ _ known => ∀ k, known = some k → site.Knows commands r k.existing? k.reference

/-- What is found for the identity of an object, if it has one. -/
def Finds (site : WalkSite) (r : Resource) (identity : Option Identity) (w : Walk) (known : Option Known)
    (after : Walk) : Prop :=
  match identity with
  | none => known = none ∧ after = w
  | some i => (site.lookup r i).run.run w = (.ok known, after)

/-- An object with an identity is looked up before anything else is done with it. -/
theorem finds_of_identity {β : Type} {r : Resource} {identity : Option Identity} {next : Option Known → Walking β}
    {b : β}
    (h : (match identity with
      | some i => do
        let known ← site.lookup r i
        next known
      | none => do
        let known ← pure none
        next known : Walking β).run.run w = (.ok b, after)) :
    ∃ known between, site.Finds r identity w known between ∧
      (next known).run.run between = (.ok b, after) := by
  cases identity with
  | some i => exact bind_eq_ok h
  | none => exact ⟨none, w, ⟨rfl, rfl⟩, h⟩

/-- What is found for an object may be referred to. -/
theorem Finds.steps {r : Resource} {identity : Option Identity} {known : Option Known}
    (h : site.Finds r identity w known after) (hw : site.Sound w)
    (hr : site.registry.schema.resource? r.name = some r) :
    site.Steps w after ∧
      ∀ k, known = some k → site.Knows after.plan.commands r k.existing? k.reference := by
  cases identity with
  | none =>
    obtain ⟨rfl, rfl⟩ := h
    exact ⟨.refl, fun k hk => by cases hk⟩
  | some i => exact lookup_steps hw hr h

theorem openObject_steps {r : Resource} {path : String} {position : Position}
    {members : List (String × Json)} {opened : Opened} (hw : site.Sound w)
    (hr : site.registry.schema.resource? r.name = some r)
    (hposition : site.Admits w.plan.commands r position)
    (h : (site.openObject r path position members).run.run w = (.ok opened, after)) :
    site.Steps w after ∧ site.Enters after.plan.commands r opened := by
  obtain ⟨op, _, hop, h₁⟩ := bind_eq_ok h
  obtain ⟨-, rfl⟩ := liftM_eq_ok hop
  obtain ⟨identity, between, hidentity, h₂⟩ := bind_eq_ok h₁
  have hstart : site.Steps w between := identityOf_steps hidentity
  dsimp only at h₂
  obtain ⟨known, found, hfinds, h₃⟩ := finds_of_identity h₂
  obtain ⟨hlookup, hknows⟩ := hfinds.steps (hstart.sound hw) hr
  have hsteps : site.Steps w found := hstart.trans hlookup
  cases known with
  | none =>
    dsimp only at h₃
    split at h₃
    · split at h₃
      · cases h₃
      · cases h₃
    · cases h₃
      exact ⟨hsteps, fun k hk => by cases hk⟩
  | some k =>
    have hk := hknows k rfl
    dsimp only at h₃
    split at h₃
    · obtain ⟨_, _, hissue, h₄⟩ := bind_eq_ok h₃
      cases h₄
      exact ⟨hsteps.trans (issue_steps hissue), fun v hv => by cases hv⟩
    · split at h₃
      · have hsettled : ∀ {last : Walk}, site.Steps found last → ∀ v ∈ some (Visited.mk k.reference true),
            site.MayRefer last.plan.commands r v.reference := fun hlast v hv =>
          ⟨k.existing?, Option.mem_some_iff.1 hv ▸ hk.mono hlast.grows.1⟩
        cases position with
        | nested p =>
          obtain ⟨hp, htarget⟩ := hposition
          obtain ⟨_, _, hunlink, h₄⟩ := bind_eq_ok h₃
          cases h₄
          have hgone := unlink_steps (hp.mono hsteps.grows.1) htarget hk hunlink
          exact ⟨hsteps.trans hgone, hsettled hgone⟩
        | root root =>
          obtain ⟨_, _, hdelete, h₄⟩ := bind_eq_ok h₃
          cases h₄
          have hgone := planDelete_steps hr hk hdelete
          exact ⟨hsteps.trans hgone, hsettled hgone⟩
      · cases h₃
        exact ⟨hsteps, hknows⟩

/-! ## Fields -/

/-- A walk that has noted issues and asked gates that allowed, and done nothing else. -/
def Asked (site : WalkSite) (qs : List Question) (w after : Walk) : Prop :=
  (∀ q ∈ qs, q.allowed site.ctx = true) ∧ ∃ found, after = { w with
    issues := w.issues ++ found
    consulted := w.consulted ++ qs.map (·.answer site.ctx) }

theorem Asked.refl (w : Walk) : site.Asked [] w w :=
  ⟨fun _ h => (by cases h), [], by simp⟩

theorem Asked.trans {qs others : List Question} {between : Walk} (h : site.Asked qs w between)
    (k : site.Asked others between after) : site.Asked (qs ++ others) w after := by
  obtain ⟨hallowed, found, rfl⟩ := h
  obtain ⟨hothers, more, rfl⟩ := k
  refine ⟨fun q hq => (List.mem_append.1 hq).elim (hallowed q) (hothers q), found ++ more, ?_⟩
  simp

theorem Asked.steps {qs : List Question} (h : site.Asked qs w after) : site.Steps w after := by
  obtain ⟨hallowed, found, rfl⟩ := h
  exact (Relation.ReflTransGen.single (.issues found)).tail (.ask hallowed)

theorem asked_issues {found : List Issue} {u : Unit}
    (h : (addIssues found).run.run w = (.ok u, after)) : site.Asked [] w after := by
  cases h
  exact ⟨fun _ h => (by cases h), found, by simp⟩

theorem readField_eq_ok {s : Scope} {values next : Record} {key : String} {raw : Json}
    (h : (site.readField s values key raw).run.run w = (.ok next, after)) :
    ∃ qs, site.Asked qs w after ∧ ∀ asked, site.registry.Assigns s values asked →
      site.registry.Assigns s next (asked ++ qs) := by
  have hnothing : site.Asked [] w after → next = values → ∃ qs, site.Asked qs w after ∧
      ∀ asked, site.registry.Assigns s values asked → site.registry.Assigns s next (asked ++ qs) := by
    rintro hasked rfl
    exact ⟨[], hasked, fun asked h => by simpa using h⟩
  unfold readField at h
  dsimp only at h
  split at h
  · obtain ⟨_, _, hissue, h⟩ := bind_eq_ok h
    cases h
    exact hnothing (asked_issues hissue) rfl
  · rename_i field hfield
    have hname : s.resource.field? field.name = some field := by
      have hkey : field.name = key := by simpa using List.find?_some hfield
      rw [hkey]
      exact hfield
    split at h
    · obtain ⟨_, _, hissue, h⟩ := bind_eq_ok h
      cases h
      exact hnothing (asked_issues hissue) rfl
    · rename_i value _
      split at h
      · cases h
        exact hnothing (.refl w) rfl
      · split at h
        · obtain ⟨_, _, hissue, h⟩ := bind_eq_ok h
          cases h
          exact hnothing (asked_issues hissue) rfl
        · split at h
          · obtain ⟨_, _, hissue, h⟩ := bind_eq_ok h
            cases h
            exact hnothing (asked_issues hissue) rfl
          · obtain ⟨_, _, hpermit, h⟩ := bind_eq_ok h
            obtain ⟨hallowed, rfl⟩ := permit_eq_ok hpermit
            cases h
            exact ⟨[⟨site.registry.gateWithRef s.resource.name, s.change (.field field.name) value⟩],
              ⟨by simpa using hallowed, [], by simp⟩, fun asked h => h.field hname⟩

theorem foldFields_eq_ok {s : Scope} {members : List (String × Json)} {before values : Record}
    (h : (members.foldlM (fun values (key, raw) =>
      if key = DocumentOp.key ∨ key = selfKey ∨ (s.resource.relationship? key).isSome then pure values
      else site.readField s values key raw) before : Walking Record).run.run w = (.ok values, after)) :
    ∃ qs, site.Asked qs w after ∧ ∀ asked, site.registry.Assigns s before asked →
      site.registry.Assigns s values (asked ++ qs) := by
  induction members generalizing before w with
  | nil =>
    cases h
    exact ⟨[], .refl _, fun asked h => by simpa using h⟩
  | cons m members ih =>
    rw [List.foldlM_cons] at h
    obtain ⟨next, between, hread, hrest⟩ := bind_eq_ok h
    obtain ⟨qs, hasked, hassigns⟩ := ih hrest
    obtain ⟨key, raw⟩ := m
    dsimp only at hread
    split at hread
    · cases hread
      exact ⟨qs, hasked, hassigns⟩
    · obtain ⟨first, hfirst, hnext⟩ := readField_eq_ok hread
      refine ⟨first ++ qs, hfirst.trans hasked, fun asked h => ?_⟩
      rw [← List.append_assoc]
      exact hassigns _ (hnext asked h)

theorem readFields_eq_ok {s : Scope} {members : List (String × Json)} {values : Record}
    (h : (site.readFields s members).run.run w = (.ok values, after)) :
    ∃ qs, site.Asked qs w after ∧ site.registry.Assigns s values qs := by
  obtain ⟨qs, hasked, hassigns⟩ := foldFields_eq_ok h
  exact ⟨qs, hasked, hassigns [] .none⟩

theorem requireFields_asked {s : Scope} {members : List (String × Json)} {u : Unit}
    (h : (requireFields s members).run.run w = (.ok u, after)) : site.Asked [] w after := by
  unfold requireFields at h
  dsimp only at h
  generalize s.resource.fields.filter Field.requiredOnInput = fields at h
  induction fields generalizing w with
  | nil =>
    cases h
    exact .refl _
  | cons f fields ih =>
    obtain ⟨_, between, hfield, hrest⟩ := bind_eq_ok h
    dsimp only at hfield
    split at hfield
    · cases hfield
      exact ih hrest
    · exact (asked_issues hfield).trans (ih hrest)

/-! ## Placing and attaching -/

/-- A command that is planned right after its fields and its entity were asked about. -/
theorem planned_steps {c : Command} {fields : List Question} {q : Question} (found : List Issue)
    (hfields : ∀ q ∈ fields, q.allowed site.ctx = true) (hentity : q.allowed site.ctx = true)
    (hplans : site.Plans w.consulted w.plan.commands c (fields ++ [q])) :
    site.Steps w { w with
      plan := w.plan.push c
      issues := w.issues ++ found
      consulted := w.consulted ++ fields.map (·.answer site.ctx) ++ [q.answer site.ctx] } := by
  have hallowed : ∀ q' ∈ fields ++ [q], q'.allowed site.ctx = true := by
    intro q' hq'
    rcases List.mem_append.1 hq' with hq' | hq'
    · exact hfields q' hq'
    · exact List.mem_singleton.1 hq' ▸ hentity
  have hstep := Step.plan (w := { w with issues := w.issues ++ found }) hplans hallowed
  rw [List.map_append, ← List.append_assoc] at hstep
  exact .tail (.single (.issues found)) hstep

/-- Planned writes are written over what is known. -/
theorem Knows.written {commands : List Command} {r : Resource} {k : Known}
    (h : site.Knows commands r k.existing? k.reference) (values : Record) :
    site.Knows commands r ({ k with record := k.record.union values } : Known).existing? k.reference := by
  obtain ⟨reference, record, created⟩ := k
  cases reference with
  | existing i =>
    obtain ⟨old, hold, hshows⟩ := h
    cases created with
    | true => cases hold
    | false =>
      cases hold
      exact ⟨_, rfl, hshows.written values⟩
  | pending slot =>
    cases created with
    | true => exact h
    | false => cases h.1

/-- The walk knows the entity of an object from then on, if the object names it. -/
def noted (s : Scope) (k : Known) (w : Walk) : Walk :=
  { w with known := (s.identity.map fun i => ((s.resource.name, i.key), k)).toList ++ w.known }

/-- A command is planned for the entity of an object once its gate has been asked. -/
def planned (site : WalkSite) (s : Scope) (members : List (String × Json)) (c : Command) (w : Walk) :
    Walk :=
  { w with
    plan := w.plan.push c
    consulted := w.consulted ++ [(site.registry.entityQuestion s members).answer site.ctx] }

/-- The ways in which the entity of an object is placed. -/
inductive Placing (site : WalkSite) (s : Scope) (members : List (String × Json)) (values : Record)
    (w : Walk) : EntityRef → Walk → Prop
  | create (hnew : s.known = none)
      (hallowed : (site.registry.entityQuestion s members).allowed site.ctx = true) :
      Placing site s members values w (.pending w.plan.pending)
        (noted s ⟨.pending w.plan.pending, values, true⟩
          (site.planned s members (.create w.plan.pending s.resource.name values) w))
  | update {k : Known} (hold : s.known = some k) (hvalues : values.isEmpty = false)
      (hallowed : (site.registry.entityQuestion s members).allowed site.ctx = true) :
      Placing site s members values w k.reference
        (noted s { k with record := k.record.union values }
          (site.planned s members (.update s.resource.name k.reference values) w))
  | keep {k : Known} (hold : s.known = some k) (hvalues : values.isEmpty = true) :
      Placing site s members values w k.reference w

theorem eq_noted {s : Scope} {k : Known} {reference result : EntityRef}
    (h : (do
      match s.identity with
      | some i => learn s.resource.name i.key k
      | none => pure ()
      pure reference : Walking EntityRef).run.run w = (.ok result, after)) :
    result = reference ∧ after = noted s k w := by
  unfold noted
  cases hidentity : s.identity with
  | none =>
    simp only [hidentity] at h
    cases h
    exact ⟨rfl, rfl⟩
  | some i =>
    simp only [hidentity] at h
    cases h
    exact ⟨rfl, rfl⟩

theorem placing_of_place {s : Scope} {members : List (String × Json)} {values : Record}
    {reference : EntityRef} (h : (site.place s members values).run.run w = (.ok reference, after)) :
    site.Placing s members values w reference after := by
  unfold place at h
  dsimp only at h
  split at h
  · rename_i hnew
    obtain ⟨_, _, hpermit, h₁⟩ := bind_eq_ok h
    obtain ⟨hallowed, rfl⟩ := permit_eq_ok hpermit
    obtain ⟨_, _, hget, h₂⟩ := bind_eq_ok h₁
    cases hget
    obtain ⟨_, _, hmodify, h₃⟩ := bind_eq_ok h₂
    cases hmodify
    obtain ⟨rfl, rfl⟩ := eq_noted h₃
    exact .create hnew hallowed
  · rename_i k hold
    split at h
    · rename_i hvalues
      obtain ⟨_, _, hpermit, h₁⟩ := bind_eq_ok h
      obtain ⟨hallowed, rfl⟩ := permit_eq_ok hpermit
      obtain ⟨_, _, hcommand, h₂⟩ := bind_eq_ok h₁
      cases hcommand
      obtain ⟨rfl, rfl⟩ := eq_noted h₂
      exact .update hold (by simpa using hvalues) hallowed
    · rename_i hvalues
      cases h
      exact .keep hold (by simpa using hvalues)

theorem noted_steps {s : Scope} {k : Known}
    (hr : site.registry.schema.resource? s.resource.name = some s.resource)
    (hk : site.Knows w.plan.commands s.resource k.existing? k.reference) :
    site.Steps w (noted s k w) := by
  unfold noted
  cases s.identity with
  | none => exact .refl
  | some i => exact .single (.learn hr hk)

/-- The entity of an object is created or updated right after its fields were asked about. -/
theorem place_steps {s : Scope} {members : List (String × Json)} {values : Record}
    {reference : EntityRef} {fields : List Question} {between : Walk}
    (hr : site.registry.schema.resource? s.resource.name = some s.resource)
    (hknows : ∀ k, s.known = some k → site.Knows w.plan.commands s.resource k.existing? k.reference)
    (hasked : site.Asked fields w between) (hfields : site.registry.Assigns s values fields)
    (h : (site.place s members values).run.run between = (.ok reference, after)) :
    site.Steps w after ∧ site.Knows after.plan.commands s.resource s.existing reference := by
  obtain ⟨hallowed, found, rfl⟩ := hasked
  cases placing_of_place h with
  | create hnew hentity =>
    have hplanned := planned_steps (w := w) found hallowed hentity (.create hr hnew hfields)
    have hreference : site.Knows (w.plan.push (.create w.plan.pending s.resource.name values)).commands
        s.resource none (.pending w.plan.pending) :=
      ⟨rfl, values, List.mem_append_right _ List.mem_cons_self⟩
    rw [show s.existing = none by rw [Scope.existing, hnew, Option.bind_none]]
    exact ⟨hplanned.trans (noted_steps hr hreference), hreference⟩
  | @update k hold hvalues hentity =>
    have hk := hknows k hold
    have hplanned := planned_steps (w := w) found hallowed hentity (.update hr hold hk hfields)
    have hlater := hk.mono hplanned.grows.1
    rw [show s.existing = k.existing? by rw [Scope.existing, hold, Option.bind_some]]
    exact ⟨hplanned.trans (noted_steps hr (hlater.written values)), hlater⟩
  | @keep k hold hvalues =>
    obtain rfl := hfields.eq_nil hvalues
    rw [show s.existing = k.existing? by rw [Scope.existing, hold, Option.bind_some]]
    simp only [List.map_nil, List.append_nil]
    exact ⟨.single (.issues found), hknows k hold⟩

theorem attach_steps {s : Scope} {op : Option DocumentOp} {members : List (String × Json)}
    {reference : EntityRef} {u : Unit} (hw : site.Sound w)
    (hposition : site.Admits w.plan.commands s.resource s.position)
    (hknows : site.Knows w.plan.commands s.resource s.existing reference)
    (h : (site.attach s op members reference).run.run w = (.ok u, after)) : site.Steps w after := by
  unfold attach at h
  split at h
  · cases h
    exact .refl
  · rename_i p hp
    rw [hp] at hposition
    refine link_steps hw hposition.1 hposition.2 ?_ h
    unfold Scope.existing at hknows
    cases hknown : s.known with
    | none =>
      rw [hknown] at hknows
      simpa [Known.existing?, Scope.creating, hknown] using hknows
    | some k =>
      rw [hknown] at hknows
      simpa [Known.existing?, Scope.creating, hknown] using hknows

/-! ## Documents -/

/-- An entity is placed and attached, and its relationships are walked. -/
theorem written_steps {s : Scope} {op : Option DocumentOp} {members : List (String × Json)}
    {values : Record} {mode : WriteMode} {fields : List Question} {between : Walk}
    {visited : Option Visited} (hw : site.Sound w)
    (hr : site.registry.schema.resource? s.resource.name = some s.resource)
    (hposition : site.Admits w.plan.commands s.resource s.position)
    (hknows : ∀ k, s.known = some k → site.Knows w.plan.commands s.resource k.existing? k.reference)
    (hasked : site.Asked fields w between) (hfields : site.registry.Assigns s values fields)
    (hrelationships : ∀ reference {w after : Walk} {u : Unit}, site.Sound w →
      site.Knows w.plan.commands s.resource s.existing reference →
        (site.visitRelationships s reference mode members).run.run w = (.ok u, after) →
          site.Steps w after)
    (h : (do
      let reference ← site.place s members values
      site.attach s op members reference
      site.visitRelationships s reference mode members
      pure (some ⟨reference, false⟩) : Walking (Option Visited)).run.run between = (.ok visited, after)) :
    site.Steps w after ∧ ∀ v ∈ visited, site.MayRefer after.plan.commands s.resource v.reference := by
  obtain ⟨reference, placed, hplace, h₁⟩ := bind_eq_ok h
  obtain ⟨hsteps, hreference⟩ := place_steps hr hknows hasked hfields hplace
  obtain ⟨_, attached, hattach, h₂⟩ := bind_eq_ok h₁
  have hattached := attach_steps (hsteps.sound hw) (hposition.mono hsteps.grows.1) hreference hattach
  have hboth : site.Steps w attached := hsteps.trans hattached
  obtain ⟨_, walked, hwalk, h₃⟩ := bind_eq_ok h₂
  cases h₃
  have hlater := hreference.mono hattached.grows.1
  have hwalked := hrelationships reference (hboth.sound hw) hlater hwalk
  refine ⟨hboth.trans hwalked, fun v hv => ?_⟩
  obtain rfl := Option.mem_some_iff.1 hv
  exact ⟨s.existing, hlater.mono hwalked.grows.1⟩

mutual

/-- A walk over a document is a sequence of steps, and its entity may be referred to from then on. -/
theorem visit_steps {r : Resource} {path : String} {position : Position} {mode : WriteMode}
    {w after : Walk} {visited : Option Visited} (hw : site.Sound w)
    (hr : site.registry.schema.resource? r.name = some r)
    (hposition : site.Admits w.plan.commands r position) :
    ∀ document : Json, (site.visit r path position mode document).run.run w = (.ok visited, after) →
      site.Steps w after ∧ ∀ v ∈ visited, site.MayRefer after.plan.commands r v.reference
  | .obj members, h => by
    rw [visit] at h
    obtain ⟨opened, start, hopen, h₁⟩ := bind_eq_ok h
    obtain ⟨hsteps, henters⟩ := openObject_steps hw hr hposition hopen
    split at h₁
    · cases h₁
      exact ⟨hsteps, henters⟩
    · rename_i op identity known
      have hstart := hsteps.sound hw
      obtain ⟨values, read, hread, h₂⟩ := bind_eq_ok h₁
      obtain ⟨fields, hasked, hfields⟩ := readFields_eq_ok hread
      have hwritten := fun between (hasked : site.Asked fields start between) =>
        @written_steps _ _ after ⟨r, path, position, identity, known⟩ op members values mode fields between
          visited hstart hr (hposition.mono hsteps.grows.1) henters hasked hfields
          fun reference _ _ _ hw hknows h => visitRelationships_steps hw hr hknows members h
      dsimp only at h₂
      split at h₂
      · obtain ⟨_, required, hrequire, h₃⟩ := bind_eq_ok h₂
        have hboth := hasked.trans (requireFields_asked hrequire)
        rw [List.append_nil] at hboth
        exact (hwritten required hboth h₃).imp_left hsteps.trans
      · exact (hwritten read hasked h₂).imp_left hsteps.trans
  | .null, h | .bool _, h | .num _, h | .str _, h | .arr _, h => by
    rw [visit] at h
    · obtain ⟨_, _, hissue, h⟩ := bind_eq_ok h
      cases h
      exact ⟨issue_steps hissue, fun v hv => by cases hv⟩
    · exact nofun
termination_by document => sizeOf document

theorem visitRelationships_steps {s : Scope} {reference : EntityRef} {mode : WriteMode}
    {w after : Walk} {u : Unit} (hw : site.Sound w)
    (hr : site.registry.schema.resource? s.resource.name = some s.resource)
    (hknows : site.Knows w.plan.commands s.resource s.existing reference) :
    ∀ members : List (String × Json),
      (site.visitRelationships s reference mode members).run.run w = (.ok u, after) →
        site.Steps w after
  | [], h => by
    rw [visitRelationships] at h
    cases h
    exact .refl
  | (key, raw) :: rest, h => by
    rw [visitRelationships] at h
    have hrest : ∀ {between : Walk} {u : Unit}, site.Steps w between →
        (site.visitRelationships s reference mode rest).run.run between = (.ok u, after) →
          site.Steps w after := fun hsteps h =>
      hsteps.trans (visitRelationships_steps (hsteps.sound hw) hr (hknows.mono hsteps.grows.1) rest h)
    dsimp only at h
    split at h
    · exact hrest .refl h
    · split at h
      · exact hrest .refl h
      · split at h
        · exact hrest .refl h
        · split at h
          · obtain ⟨_, _, hissue, h₁⟩ := bind_eq_ok h
            exact hrest (issue_steps hissue) h₁
          · rename_i rel hrel _ _
            obtain ⟨target, _, hrequire, h₁⟩ := bind_eq_ok h
            obtain ⟨htarget, rfl⟩ := liftM_eq_ok hrequire
            replace htarget := Schema.require_eq_ok.1 htarget
            have hresource := Schema.resource?_of_target? htarget
            have hposition : site.Admits w.plan.commands target
                (.nested ⟨s.resource, rel, reference, s.existing⟩) :=
              ⟨⟨hr, (Resource.name_of_relationship? hrel).symm ▸ hrel, hknows⟩, htarget⟩
            split at h₁
            · split at h₁
              · rename_i items _
                obtain ⟨mentioned, walked, hitems, h₂⟩ := bind_eq_ok h₁
                have hsteps := visitItems_steps hw hresource hposition items hitems
                split at h₂
                · obtain ⟨_, unlinked, hunlink, h₃⟩ := bind_eq_ok h₂
                  have hposition := hposition.mono hsteps.grows.1
                  have hgone := (unlinkAbsent_steps (hsteps.sound hw) hposition.1 hposition.2 hunlink).1
                  exact hrest (hsteps.trans hgone) h₃
                · exact hrest hsteps h₂
              · obtain ⟨_, _, hissue, h₂⟩ := bind_eq_ok h₁
                exact hrest (issue_steps hissue) h₂
            · split at h₁
              · obtain ⟨_, _, hvisit, h₂⟩ := bind_eq_ok h₁
                exact hrest (visit_steps hw hresource hposition raw hvisit).1 h₂
              · split at h₁
                · obtain ⟨_, _, hunlink, h₂⟩ := bind_eq_ok h₁
                  exact hrest (unlinkAbsent_steps hw hposition.1 hposition.2 hunlink).1 h₂
                · obtain ⟨_, _, hissue, h₂⟩ := bind_eq_ok h₁
                  exact hrest (issue_steps hissue) h₂
termination_by members => sizeOf members

theorem visitItems_steps {target : Resource} {path : String} {parent : Parent} {index : Nat}
    {w after : Walk} {mentioned : List String} (hw : site.Sound w)
    (hr : site.registry.schema.resource? target.name = some target)
    (hposition : site.Admits w.plan.commands target (.nested parent)) :
    ∀ items : List Json,
      (site.visitItems target path parent index items).run.run w = (.ok mentioned, after) →
        site.Steps w after
  | [], h => by
    rw [visitItems] at h
    cases h
    exact .refl
  | item :: rest, h => by
    rw [visitItems] at h
    obtain ⟨visited, between, hvisit, h₁⟩ := bind_eq_ok h
    have hfirst := (visit_steps hw hr hposition item hvisit).1
    obtain ⟨others, walked, hothers, h₂⟩ := bind_eq_ok h₁
    have hrest := visitItems_steps (hfirst.sound hw) hr (hposition.mono hfirst.grows.1) rest hothers
    split at h₂
    · cases h₂
      exact hfirst.trans hrest
    · cases h₂
      exact hfirst.trans hrest
termination_by items => sizeOf items

end

theorem visitRoots_steps {r : Resource} {root : Root} {index : Nat} {items : List Json}
    {visited : List Visited} (hw : site.Sound w)
    (hr : site.registry.schema.resource? r.name = some r)
    (h : (site.visitRoots r root index items).run.run w = (.ok visited, after)) :
    site.Steps w after ∧ ∀ v ∈ visited, site.MayRefer after.plan.commands r v.reference := by
  induction items generalizing w index visited with
  | nil =>
    cases h
    exact ⟨.refl, fun v hv => by cases hv⟩
  | cons item items ih =>
    obtain ⟨_, _, hvisit, h₁⟩ := bind_eq_ok h
    obtain ⟨hfirst, hfound⟩ := visit_steps hw hr (admits_root _ r root) item hvisit
    obtain ⟨_, _, hothers, h₂⟩ := bind_eq_ok h₁
    cases h₂
    obtain ⟨hrest, hmore⟩ := ih (hfirst.sound hw) hothers
    refine ⟨hfirst.trans hrest, fun v hv => ?_⟩
    rcases List.mem_append.1 hv with hv | hv
    · exact (hfound v (Option.mem_toList.1 hv)).mono hrest.grows.1
    · exact hmore v hv

theorem require_eq_ok {resource : String} {r : Resource}
    (h : (liftM (site.registry.schema.require resource) : Walking Resource).run.run w = (.ok r, after)) :
    site.registry.schema.resource? r.name = some r ∧ r.name = resource ∧ after = w := by
  obtain ⟨hr, rfl⟩ := liftM_eq_ok h
  have hresource := Schema.require_eq_ok.1 hr
  have hname := Schema.name_of_resource? hresource
  exact ⟨hname.symm ▸ hresource, hname, rfl⟩

/-- The references of entities that may be referred to. -/
theorem mayRefer_of_visited {commands : List Command} {r : Resource} {visited : List Visited}
    (h : ∀ v ∈ visited, site.MayRefer commands r v.reference) :
    ∀ ref ∈ visited.map Visited.reference, site.MayRefer commands r ref := by
  intro ref href
  obtain ⟨v, hv, rfl⟩ := List.mem_map.1 href
  exact h v hv

/-- What a write on a resource does: a sequence of steps, after which its entities may be referred to. -/
def Walks (site : WalkSite) (resource : String) (roots : List EntityRef) (w after : Walk) : Prop :=
  site.Steps w after ∧ ∃ r, site.registry.schema.resource? resource = some r ∧
    ∀ ref ∈ roots, site.MayRefer after.plan.commands r ref

/-- A walk over documents of a resource. -/
theorem walks_of_visited {resource : String} {r : Resource} {visited : List Visited}
    (hr : site.registry.schema.resource? r.name = some r) (hname : r.name = resource)
    (h : site.Steps w after ∧ ∀ v ∈ visited, site.MayRefer after.plan.commands r v.reference) :
    site.Walks resource (visited.map Visited.reference) w after :=
  ⟨h.1, r, hname ▸ hr, mayRefer_of_visited h.2⟩

theorem update_walks {resource : String} {i : Identity} {document : Json} {mode : WriteMode}
    {roots : List EntityRef} (hw : site.Sound w)
    (h : (site.update resource i document mode).run.run w = (.ok roots, after)) :
    site.Walks resource roots w after := by
  obtain ⟨r, _, hrequire, h₁⟩ := bind_eq_ok h
  obtain ⟨hr, hname, rfl⟩ := require_eq_ok hrequire
  obtain ⟨_, _, hvisit, h₂⟩ := bind_eq_ok h₁
  cases h₂
  refine walks_of_visited hr hname ((visit_steps hw hr (admits_root _ r _) document hvisit).imp_right ?_)
  exact fun hfound v hv => hfound v (Option.mem_toList.1 hv)

/-- Every visible entity that satisfies a predicate may be referred to. -/
theorem deleteWhere_walks {resource : String} {predicate : Option Predicate} {roots : List EntityRef}
    (hw : site.Sound w)
    (h : (site.deleteWhere resource predicate).run.run w = (.ok roots, after)) :
    site.Walks resource roots w after := by
  obtain ⟨r, _, hrequire, h₁⟩ := bind_eq_ok h
  obtain ⟨hr, hname, rfl⟩ := require_eq_ok hrequire
  obtain ⟨required, _, hrequired, h₂⟩ := bind_eq_ok h₁
  obtain ⟨hfilter, rfl⟩ := liftM_eq_ok hrequired
  obtain ⟨rows, _, hfetch, h₃⟩ := bind_eq_ok h₂
  obtain ⟨hrows, rfl⟩ := liftM_eq_ok hfetch
  obtain ⟨_, hall, hrow⟩ := site.tables.fetch_all hr (Predicate.conjoin predicate required)
  cases hall.symm.trans hrows
  obtain ⟨_, _, hdelete, h₄⟩ := bind_eq_ok h₃
  cases h₄
  have hknows : ∀ k ∈ rows.filterMap fun row =>
      (r.identityOf? row.record).map fun i => Known.mk (.existing i) row.record false,
      ∀ commands, site.Knows commands r k.existing? k.reference := by
    intro k hk commands
    obtain ⟨row, hfound, hk⟩ := List.mem_filterMap.1 hk
    obtain ⟨record, hmem, hpasses, rfl⟩ := (hrow row).1 hfound
    obtain ⟨i, hi, rfl⟩ := Option.map_eq_some_iff.1 hk
    rw [Predicate.passes_conjoin, Bool.and_eq_true] at hpasses
    have hidentity : r.identityOf? record = some i := hi
    exact ⟨record, rfl, .row hmem hfilter hpasses.2 (by rw [hidentity, Option.getD_some])⟩
  refine ⟨(forM_steps (P := fun _ _ => True) (fun _ _ _ _ h => h)
    (fun k hk w after u _ hw h => ⟨planDelete_steps hr (hknows k hk _) h, trivial⟩) .refl hw hdelete).1,
    r, hname ▸ hr, fun ref href => ?_⟩
  obtain ⟨k, hk, rfl⟩ := List.mem_map.1 href
  exact ⟨k.existing?, hknows k hk _⟩

end WalkSite

/-! ## Writes -/

/-- What a client may ask to be written. -/
inductive WriteOp where
  | create (resource : String) (document : Json)
  | update (resource : String) (identity : Identity) (document : Json) (mode : WriteMode)
  | updateField (resource : String) (identity : Identity) (field : String) (value : Json)
  | patchCollection (resource : String) (document : Json)
  | delete (resource : String) (identity : Identity)
  | deleteWhere (resource : String) (predicate : Option Predicate)

namespace WriteOp

open Walking WalkSite

variable {site : WalkSite} {w after : Walk}

def walk (op : WriteOp) (site : WalkSite) : Walking (List EntityRef) :=
  match op with
  | create resource document => site.create resource document
  | update resource identity document mode => site.update resource identity document mode
  | updateField resource identity field value => site.updateField resource identity field value
  | patchCollection resource document => site.patchCollection resource document
  | delete resource identity => site.delete resource identity
  | deleteWhere resource predicate => site.deleteWhere resource predicate

/-- The resource of the entities at the top. -/
def resource : WriteOp → String
  | create resource _ | update resource _ _ _ | updateField resource _ _ _ | patchCollection resource _
  | delete resource _ | deleteWhere resource _ => resource

/-- The walk of a write is a sequence of steps, and the entities at the top may be referred to. -/
theorem walks {op : WriteOp} {roots : List EntityRef} (hw : site.Sound w)
    (h : (op.walk site).run.run w = (.ok roots, after)) : site.Walks op.resource roots w after := by
  cases op with
  | create resource document =>
    obtain ⟨r, _, hrequire, h₁⟩ := bind_eq_ok h
    obtain ⟨hr, hname, rfl⟩ := require_eq_ok hrequire
    dsimp only at h₁
    split at h₁
    · obtain ⟨_, _, hvisit, h₂⟩ := bind_eq_ok h₁
      cases h₂
      exact walks_of_visited hr hname (visitRoots_steps hw hr hvisit)
    · obtain ⟨_, _, hvisit, h₂⟩ := bind_eq_ok h₁
      cases h₂
      refine walks_of_visited hr hname ((visit_steps hw hr (admits_root _ r _) document hvisit).imp_right ?_)
      exact fun hfound v hv => hfound v (Option.mem_toList.1 hv)
  | update resource identity document mode => exact update_walks hw h
  | updateField resource identity field value =>
    obtain ⟨r, _, hrequire, h₁⟩ := bind_eq_ok h
    obtain ⟨hr, -, rfl⟩ := require_eq_ok hrequire
    split at h₁
    · cases h₁
    · exact update_walks hw h₁
  | patchCollection resource document =>
    obtain ⟨r, _, hrequire, h₁⟩ := bind_eq_ok h
    obtain ⟨hr, hname, rfl⟩ := require_eq_ok hrequire
    split at h₁
    · obtain ⟨_, _, hvisit, h₂⟩ := bind_eq_ok h₁
      cases h₂
      refine walks_of_visited hr hname ((visitRoots_steps hw hr hvisit).imp_right ?_)
      exact fun hfound v hv => hfound v (List.mem_of_mem_filter hv)
    · cases h₁
  | delete resource identity =>
    obtain ⟨r, _, hrequire, h₁⟩ := bind_eq_ok h
    obtain ⟨hr, hname, rfl⟩ := require_eq_ok hrequire
    obtain ⟨found, _, hlookup, h₂⟩ := bind_eq_ok h₁
    obtain ⟨hsteps, hknows⟩ := lookup_steps hw hr hlookup
    split at h₂
    · cases h₂
    · rename_i k
      obtain ⟨_, _, hdelete, h₃⟩ := bind_eq_ok h₂
      cases h₃
      have hgone := planDelete_steps hr (hknows k rfl) hdelete
      refine ⟨hsteps.trans hgone, r, hname ▸ hr, fun ref href => ?_⟩
      obtain rfl := List.mem_singleton.1 href
      exact ⟨k.existing?, (hknows k rfl).mono hgone.grows.1⟩
  | deleteWhere resource predicate => exact deleteWhere_walks hw h

/-- A write that gets to its commit has kept its walk sound. -/
theorem sound {op : WriteOp} {roots : List EntityRef}
    (h : (op.walk site).run.run {} = (.ok roots, w)) : site.Sound w :=
  (walks sound_empty h).1.sound sound_empty

end WriteOp

end NestedResources
