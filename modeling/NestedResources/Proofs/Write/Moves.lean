import NestedResources.Proofs.Write.Steps

/-!
# What the parts of a walk do

Each part of a walk is a sequence of steps, if the walk is sound. Look-ups and the lists of members
give entities that may be referred to, and whoever stops being a member has been asked about.
-/
namespace NestedResources.WalkSite

open Walking

variable {site : WalkSite} {w after : Walk}

/-! ## Gates -/

theorem permit_eq_ok {gate : GateRef × Gate} {change : Change} {u : Unit}
    (h : (site.permit gate change).run.run w = (.ok u, after)) :
    (Question.mk gate change).allowed site.ctx = true ∧ after = { w with
      consulted := w.consulted ++ [(Question.mk gate change).answer site.ctx] } := by
  obtain ⟨_, between, hmodify, h⟩ := bind_eq_ok h
  cases hmodify
  split at h
  · cases h
  · rename_i hallowed
    cases h
    exact ⟨by simpa [Question.allowed] using hallowed, rfl⟩

theorem permitRelationship_eq_ok {p : Parent} {target : Resource} {child : Option Record}
    {action : Action} {value : Option Json} {u : Unit}
    (h : (site.permitRelationship p target child action value).run.run w = (.ok u, after)) :
    (∀ q ∈ site.registry.relationshipQuestions p target child action value,
      q.allowed site.ctx = true) ∧ after = { w with
        consulted := w.consulted ++ (site.registry.relationshipQuestions p target child action
          value).map (·.answer site.ctx) } := by
  obtain ⟨_, between, hown, h⟩ := bind_eq_ok h
  obtain ⟨hallowed, rfl⟩ := permit_eq_ok hown
  unfold Registry.relationshipQuestions
  cases hinverse : p.relationship.inverse.bind target.relationship? with
  | none =>
    simp only [hinverse] at h
    cases h
    exact ⟨by simpa using hallowed, rfl⟩
  | some inverse =>
    simp only [hinverse] at h
    obtain ⟨hother, rfl⟩ := permit_eq_ok h
    exact ⟨by simpa using ⟨hallowed, hother⟩, by simp⟩

/-! ## Finding entities -/

/-- The ways in which a look-up ends: with an entity that was met, with a visible row, or with
nothing. -/
inductive LooksUp (site : WalkSite) (r : Resource) (i : Identity) (w : Walk) : Option Known → Walk → Prop
  | met {k : Known} (hmet : firstOf? (r.name, i.key) w.known = some k) : LooksUp site r i w (some k) w
  | row {required : Option Predicate} {record : Record}
      (hnew : firstOf? (r.name, i.key) w.known = none)
      (hrequired : site.registry.required site.ctx r = .ok required)
      (hmem : record ∈ site.tables.rowsOf r.name)
      (hidentity : (Predicate.identity r i).holds site.tables site.registry.schema r record = true)
      (hpasses : site.tables.passes site.registry.schema r required record = true) :
      LooksUp site r i w (some ⟨.existing ((r.identityOf? record).getD i), record, false⟩)
        { w with known := ((r.name, i.key),
          ⟨.existing ((r.identityOf? record).getD i), record, false⟩) :: w.known }
  | missing (hnew : firstOf? (r.name, i.key) w.known = none) : LooksUp site r i w none w

theorem looksUp_of_lookup {r : Resource} {i : Identity} {found : Option Known}
    (hr : site.registry.schema.resource? r.name = some r)
    (h : (site.lookup r i).run.run w = (.ok found, after)) : site.LooksUp r i w found after := by
  obtain ⟨_, _, hget, h⟩ := bind_eq_ok h
  cases hget
  split at h
  · rename_i known hknown
    cases h
    exact .met hknown
  · rename_i hnew
    obtain ⟨required, _, hrequired, h⟩ := bind_eq_ok h
    obtain ⟨hfilter, rfl⟩ := liftM_eq_ok hrequired
    obtain ⟨rows, _, hfetch, h⟩ := bind_eq_ok h
    obtain ⟨hrows, rfl⟩ := liftM_eq_ok hfetch
    obtain ⟨_, hfirst, hvisible, -⟩ := site.tables.fetch_first hr
      (Predicate.conjoin (some (.identity r i)) required)
    cases hfirst.symm.trans hrows
    split at h
    · rename_i row rest
      obtain ⟨hrow, hpasses⟩ := hvisible row List.mem_cons_self
      rw [Predicate.passes_conjoin, Bool.and_eq_true] at hpasses
      obtain ⟨_, _, hlearn, h⟩ := bind_eq_ok h
      cases hlearn
      cases h
      exact .row hnew hfilter hrow hpasses.1 hpasses.2
    · split at h
      · obtain ⟨hidden, _, hcount, h⟩ := bind_eq_ok h
        obtain ⟨-, rfl⟩ := liftM_eq_ok hcount
        split at h
        · cases h
        · cases h
          exact .missing hnew
      · cases h
        exact .missing hnew

/-- What is found may be referred to. -/
theorem lookup_steps {r : Resource} {i : Identity} {found : Option Known} (hw : site.Sound w)
    (hr : site.registry.schema.resource? r.name = some r)
    (h : (site.lookup r i).run.run w = (.ok found, after)) :
    site.Steps w after ∧ ∀ k, found = some k →
      site.Knows after.plan.commands r k.existing? k.reference := by
  cases looksUp_of_lookup hr h with
  | @met k hmet =>
    refine ⟨.refl, fun k' hk' => ?_⟩
    cases hk'
    unfold firstOf? at hmet
    obtain ⟨e, he, rfl⟩ := Option.map_eq_some_iff.1 hmet
    have hkey := List.find?_some he
    refine hw.known e (List.mem_of_find?_eq_some he) r ?_
    rw [of_decide_eq_true hkey]
    exact hr
  | @row required record hnew hrequired hmem hidentity hpasses =>
    have hknows : site.Knows w.plan.commands r (some record)
        (.existing ((r.identityOf? record).getD i)) := by
      refine ⟨record, rfl, .row hmem hrequired hpasses ?_⟩
      cases r.identityOf? record <;> rfl
    refine ⟨.single (.learn hr hknows), fun k hk => ?_⟩
    cases hk
    exact hknows
  | missing hnew => exact ⟨.refl, fun k hk => by cases hk⟩

theorem isMember_eq_ok {p : Parent} {target : Resource} {child : EntityRef} {found : Bool}
    (h : (site.isMember p target child).run.run w = (.ok found, after)) : after = w := by
  obtain ⟨_, _, hget, h⟩ := bind_eq_ok h
  cases hget
  split at h
  · cases h
    rfl
  · split at h
    · obtain ⟨count, _, hcount, h⟩ := bind_eq_ok h
      obtain ⟨-, rfl⟩ := liftM_eq_ok hcount
      cases h
      rfl
    · cases h
      rfl

/-- The members at hand are visible, and all that are visible and were not detached before. -/
theorem currentMembers_eq_ok {p : Parent} {target : Resource} {members : List Known}
    (htarget : site.registry.schema.resource? target.name = some target)
    (h : (site.currentMembers p target).run.run w = (.ok members, after)) :
    after = w ∧
      (∀ m ∈ members, ∀ commands, site.Knows commands target m.existing? m.reference) ∧
      ∀ parent, p.reference = .existing parent →
        ∀ i, site.Member p.resource p.relationship parent target i →
          (∃ m ∈ members, m.reference = .existing i) ∨
            firstOf? (p.linkKey (.existing i)) w.memberships = some false := by
  unfold currentMembers at h
  split at h
  · rename_i slot hreference
    cases h
    refine ⟨rfl, fun m hm => (by cases hm), fun parent hparent => ?_⟩
    cases hreference.symm.trans hparent
  · rename_i parent hreference
    obtain ⟨required, _, hrequired, h⟩ := bind_eq_ok h
    obtain ⟨hfilter, rfl⟩ := liftM_eq_ok hrequired
    obtain ⟨rows, _, hfetch, h⟩ := bind_eq_ok h
    obtain ⟨hrows, rfl⟩ := liftM_eq_ok hfetch
    obtain ⟨_, _, hget, h⟩ := bind_eq_ok h
    cases hget
    cases h
    obtain ⟨_, hall, hrow⟩ := site.tables.fetch_all htarget
      (Predicate.conjoin (some (.memberOf p.resource.name parent p.relationship.name)) required)
    cases hall.symm.trans hrows
    simp only [Predicate.passes_conjoin, Bool.and_eq_true] at hrow
    refine ⟨rfl, fun m hm commands => ?_, fun parent' hparent i hi => ?_⟩
    · obtain ⟨row, hfound, hm⟩ := List.mem_filterMap.1 hm
      obtain ⟨record, hmem, ⟨-, hpasses⟩, rfl⟩ := (hrow row).1 hfound
      obtain ⟨i, hi, hm⟩ := Option.bind_eq_some_iff.1 hm
      have hidentity : target.identityOf? record = some i := hi
      dsimp only at hm
      split at hm
      · cases hm
      · cases hm
        exact ⟨record, rfl, .row hmem hfilter hpasses (by rw [hidentity, Option.getD_some])⟩
    · obtain ⟨record, required', hmem, hrequired', hpasses, hholds, hidentity⟩ := hi
      cases hreference.symm.trans hparent
      cases hfilter.symm.trans hrequired'
      by_cases hgone : firstOf? (p.linkKey (.existing i)) w.memberships = some false
      · exact .inr hgone
      · refine .inl ⟨⟨.existing i, record, false⟩, List.mem_filterMap.2 ⟨.mk record [],
          (hrow _).2 ⟨record, hmem, ⟨hholds, hpasses⟩, rfl⟩, ?_⟩, rfl⟩
        exact Option.bind_eq_some_iff.2 ⟨i, hidentity, if_neg hgone⟩

/-! ## Memberships -/

/-- What was remembered to be no member has been asked about. -/
theorem Sound.removed_of_firstOf? (hw : site.Sound w) {key : LinkKey}
    (h : firstOf? key w.memberships = some false) : site.Removed w.consulted w.plan.commands key :=
  hw.memberships _ (mem_of_firstOf? h) rfl

/-- Both ends of a relationship that have allowed a membership to end. -/
theorem removed_of_permitted {p : Parent} {target : Resource} {child : Known} {value : Option Json}
    {commands : List Command} {log : List Consultation} (hp : site.Stands commands p)
    (htarget : site.registry.schema.target? p.relationship = some target)
    (hchild : site.Knows commands target child.existing? child.reference)
    (hallowed : ∀ q ∈ site.registry.relationshipQuestions p target child.existing? .remove value,
      q.allowed site.ctx = true)
    (hlog : ∀ x ∈ (site.registry.relationshipQuestions p target child.existing? .remove
      value).map (·.answer site.ctx), x ∈ log) :
    site.Removed log commands (p.linkKey child.reference) :=
  ⟨p, target, child, value, rfl, hp, htarget, hchild, fun q hq =>
    ⟨hallowed q hq, hlog _ (List.mem_map_of_mem hq)⟩⟩

/-- What is planned to detach an entity, once both ends have allowed it. -/
theorem planUnlink_eq_ok {p : Parent} {target : Resource} {child : Known} {value : Option Json} {u : Unit}
    (h : (site.planUnlink p target child value).run.run w = (.ok u, after)) :
    (∀ q ∈ site.registry.relationshipQuestions p target child.existing? .remove value,
      q.allowed site.ctx = true) ∧ after = { w with
        plan := w.plan.push (.unlink (linkChange p child.reference))
        memberships := (p.linkKey child.reference, false) :: w.memberships
        consulted := w.consulted ++ (site.registry.relationshipQuestions p target child.existing? .remove
          value).map (·.answer site.ctx) } := by
  obtain ⟨_, _, hpermit, h⟩ := bind_eq_ok h
  obtain ⟨hallowed, rfl⟩ := permitRelationship_eq_ok hpermit
  cases h
  exact ⟨hallowed, rfl⟩

theorem planUnlink_steps {p : Parent} {target : Resource} {child : Known} {value : Option Json}
    {u : Unit} (hp : site.Stands w.plan.commands p)
    (htarget : site.registry.schema.target? p.relationship = some target)
    (hchild : site.Knows w.plan.commands target child.existing? child.reference)
    (h : (site.planUnlink p target child value).run.run w = (.ok u, after)) :
    site.Steps w after ∧
      site.Removed after.consulted after.plan.commands (p.linkKey child.reference) := by
  obtain ⟨hallowed, rfl⟩ := planUnlink_eq_ok h
  have hgrows : ∀ c ∈ w.plan.commands,
      c ∈ (w.plan.push (.unlink (linkChange p child.reference))).commands :=
    fun c hc => List.mem_append_left _ hc
  have hremoved := removed_of_permitted (hp.mono hgrows) htarget (hchild.mono hgrows) hallowed
    fun x hx => List.mem_append_right w.consulted hx
  exact ⟨.tail (.single (.plan (.unlink hp htarget hchild) hallowed)) (.member fun _ => hremoved),
    hremoved⟩

/-- The ways in which a member is displaced: it is kept, or overwritten by a foreign key, or detached. -/
theorem displace_cases {p : Parent} {target : Resource} {keep : List String} {m : Known} {u : Unit}
    (h : (site.displace p target keep m).run.run w = (.ok u, after)) :
    (m.reference.key ∈ keep ∧ after = w) ∨
      (m.reference.key ∉ keep ∧ (p.relationship.join.isForeignKey && !keep.isEmpty) = true ∧
        (∀ q ∈ site.registry.relationshipQuestions p target m.existing? .remove none,
          q.allowed site.ctx = true) ∧ after = { w with
            memberships := (p.linkKey m.reference, false) :: w.memberships
            consulted := w.consulted ++ (site.registry.relationshipQuestions p target m.existing? .remove
              none).map (·.answer site.ctx) }) ∨
      (m.reference.key ∉ keep ∧ ¬(p.relationship.join.isForeignKey && !keep.isEmpty) = true ∧
        (site.planUnlink p target m none).run.run w = (.ok u, after)) := by
  unfold displace at h
  split at h
  · rename_i hkeep
    cases h
    exact .inl ⟨hkeep, rfl⟩
  · rename_i hkeep
    split at h
    · rename_i howned
      obtain ⟨_, _, hpermit, h⟩ := bind_eq_ok h
      obtain ⟨hallowed, rfl⟩ := permitRelationship_eq_ok hpermit
      cases h
      exact .inr (.inl ⟨hkeep, howned, hallowed, rfl⟩)
    · rename_i howned
      exact .inr (.inr ⟨hkeep, howned, h⟩)

/-- A member is kept, or asked about. -/
theorem displace_steps {p : Parent} {target : Resource} {keep : List String} {m : Known} {u : Unit}
    (hp : site.Stands w.plan.commands p)
    (htarget : site.registry.schema.target? p.relationship = some target)
    (hm : site.Knows w.plan.commands target m.existing? m.reference)
    (h : (site.displace p target keep m).run.run w = (.ok u, after)) :
    site.Steps w after ∧ (m.reference.key ∈ keep ∨
      site.Removed after.consulted after.plan.commands (p.linkKey m.reference)) := by
  rcases displace_cases h with ⟨hkeep, rfl⟩ | ⟨-, -, hallowed, rfl⟩ | ⟨-, -, h⟩
  · exact ⟨.refl, .inl hkeep⟩
  · have hremoved := removed_of_permitted hp htarget hm hallowed
      fun x hx => List.mem_append_right w.consulted hx
    exact ⟨.tail (.single (.ask hallowed)) (.member fun _ => hremoved), .inr hremoved⟩
  · obtain ⟨hsteps, hremoved⟩ := planUnlink_steps hp htarget hm h
    exact ⟨hsteps, .inr hremoved⟩

/-- A loop is a sequence of steps, if each round is. What a round leaves true has to last. -/
theorem forM_steps {α : Type} {f : α → Walking Unit} {P : α → Walk → Prop} {start : Walk}
    (hlast : ∀ a w after, site.Steps w after → P a w → P a after) {items : List α} {u : Unit}
    (hstep : ∀ a ∈ items, ∀ w after u, site.Steps start w → site.Sound w →
      (f a).run.run w = (.ok u, after) → site.Steps w after ∧ P a after)
    (hstart : site.Steps start w) (hw : site.Sound w)
    (h : (items.forM f).run.run w = (.ok u, after)) :
    site.Steps w after ∧ ∀ a ∈ items, P a after := by
  induction items generalizing w with
  | nil =>
    cases h
    exact ⟨.refl, fun a ha => by cases ha⟩
  | cons a items ih =>
    obtain ⟨u, between, hfirst, h⟩ := bind_eq_ok h
    obtain ⟨hsteps, ha⟩ := hstep a List.mem_cons_self w between u hstart hw hfirst
    obtain ⟨hrest, hall⟩ := ih (fun b hb => hstep b (List.mem_cons_of_mem a hb))
      (hstart.trans hsteps) (hsteps.sound hw) h
    refine ⟨hsteps.trans hrest, fun b hb => ?_⟩
    rcases List.mem_cons.1 hb with rfl | hb
    · exact hlast b between after hrest ha
    · exact hall b hb

/-- Every visible member is kept, or asked about. -/
theorem unlinkAbsent_steps {p : Parent} {target : Resource} {keep : List String} {u : Unit}
    (hw : site.Sound w) (hp : site.Stands w.plan.commands p)
    (htarget : site.registry.schema.target? p.relationship = some target)
    (h : (site.unlinkAbsent p target keep).run.run w = (.ok u, after)) :
    site.Steps w after ∧ ∀ parent, p.reference = .existing parent →
      ∀ i, site.Member p.resource p.relationship parent target i → i.key ∈ keep ∨
        site.Removed after.consulted after.plan.commands (p.linkKey (.existing i)) := by
  obtain ⟨members, _, hmembers, hloop⟩ := bind_eq_ok h
  have hname : target.name = p.relationship.target := Schema.name_of_resource? htarget
  obtain ⟨rfl, hknows, hall⟩ := currentMembers_eq_ok (hname ▸ htarget) hmembers
  obtain ⟨hsteps, hdone⟩ := forM_steps
    (P := fun (m : Known) w => m.reference.key ∈ keep ∨
      site.Removed w.consulted w.plan.commands (p.linkKey m.reference))
    (fun m w after hsteps hm => hm.imp id fun hr => hr.mono hsteps.grows.1 hsteps.grows.2)
    (fun m hm w after u hsteps _ h =>
      displace_steps (hp.mono hsteps.grows.1) htarget (hknows m hm _) h) .refl hw hloop
  refine ⟨hsteps, fun parent hparent i hi => ?_⟩
  rcases hall parent hparent i hi with ⟨m, hm, href⟩ | hgone
  · have := hdone m hm
    rw [href] at this
    exact this
  · exact .inr ((hw.removed_of_firstOf? hgone).mono hsteps.grows.1 hsteps.grows.2)

theorem issue_steps {path : String} {d : Defect} {u : Unit}
    (h : (issue path d).run.run w = (.ok u, after)) : site.Steps w after := by
  cases h
  exact .single (.issues [d.issueAt path])

/-- What is planned to make an entity a member, once both ends have allowed it. -/
theorem planLink_eq_ok {p : Parent} {target : Resource} {stored : Option Record} {reference : EntityRef}
    {value : Option Json} {u : Unit}
    (h : (do
      site.permitRelationship p target stored .add value
      command (.link (linkChange p reference))
      setMember (p.linkKey reference) true : Walking Unit).run.run w = (.ok u, after)) :
    (∀ q ∈ site.registry.relationshipQuestions p target stored .add value, q.allowed site.ctx = true) ∧
      after = { w with
        plan := w.plan.push (.link (linkChange p reference))
        memberships := (p.linkKey reference, true) :: w.memberships
        consulted := w.consulted ++ (site.registry.relationshipQuestions p target stored .add
          value).map (·.answer site.ctx) } := by
  obtain ⟨_, _, hpermit, h⟩ := bind_eq_ok h
  obtain ⟨hallowed, rfl⟩ := permitRelationship_eq_ok hpermit
  cases h
  exact ⟨hallowed, rfl⟩

/-- An entity that is a member already is left so, at most with a fault. Another is linked, once a
relationship to one entity has let go of whoever it led to. -/
theorem link_cases {p : Parent} {target : Resource} {child : Known} {explicit : Bool} {path : String}
    {value : Json} {u : Unit}
    (h : (site.link p target child explicit path value).run.run w = (.ok u, after)) :
    ((site.isMember p target child.reference).run.run w = (.ok true, w) ∧
        ∃ found, after = { w with issues := w.issues ++ found }) ∨
      ((site.isMember p target child.reference).run.run w = (.ok false, w) ∧ ∃ vacated,
        (p.relationship.isMany = true ∧ vacated = w ∨ p.relationship.isMany = false ∧
          (site.unlinkAbsent p target [child.reference.key]).run.run w = (.ok (), vacated)) ∧
        (∀ q ∈ site.registry.relationshipQuestions p target child.existing? .add (some value),
          q.allowed site.ctx = true) ∧
        after = { vacated with
          plan := vacated.plan.push (.link (linkChange p child.reference))
          memberships := (p.linkKey child.reference, true) :: vacated.memberships
          consulted := vacated.consulted ++ (site.registry.relationshipQuestions p target child.existing? .add
            (some value)).map (·.answer site.ctx) }) := by
  obtain ⟨found, _, hmember, hlink⟩ := bind_eq_ok h
  obtain rfl := isMember_eq_ok hmember
  cases found with
  | true =>
    refine .inl ⟨hmember, ?_⟩
    rw [if_pos rfl] at hlink
    split at hlink
    · cases hlink
      exact ⟨_, rfl⟩
    · cases hlink
      exact ⟨[], by rw [List.append_nil]⟩
  | false =>
    refine .inr ⟨hmember, ?_⟩
    cases hmany : p.relationship.isMany with
    | true =>
      rw [hmany] at hlink
      exact ⟨_, .inl ⟨rfl, rfl⟩, planLink_eq_ok hlink⟩
    | false =>
      rw [hmany] at hlink
      obtain ⟨_, vacated, hunlink, hplan⟩ := bind_eq_ok hlink
      exact ⟨vacated, .inr ⟨rfl, hunlink⟩, planLink_eq_ok hplan⟩

/-- A new member is linked once both ends have allowed it and every other member of a to-one
relationship has been asked about. -/
theorem link_steps {p : Parent} {target : Resource} {child : Known} {explicit : Bool} {path : String}
    {value : Json} {u : Unit} (hw : site.Sound w) (hp : site.Stands w.plan.commands p)
    (htarget : site.registry.schema.target? p.relationship = some target)
    (hchild : site.Knows w.plan.commands target child.existing? child.reference)
    (h : (site.link p target child explicit path value).run.run w = (.ok u, after)) :
    site.Steps w after := by
  rcases link_cases h with ⟨-, found, rfl⟩ | ⟨-, vacated, hvacated, hallowed, rfl⟩
  · exact .single (.issues found)
  · have hsteps : site.Steps w vacated ∧ (p.relationship.isMany = false →
        ∀ parent, p.reference = .existing parent → ∀ i, site.Member p.resource p.relationship parent target i →
          i.key ≠ child.reference.key →
            site.Removed vacated.consulted vacated.plan.commands (p.linkKey (.existing i))) := by
      rcases hvacated with ⟨hmany, rfl⟩ | ⟨-, hunlink⟩
      · exact ⟨.refl, fun hone => by cases hmany.symm.trans hone⟩
      · obtain ⟨hsteps, hall⟩ := unlinkAbsent_steps hw hp htarget hunlink
        exact ⟨hsteps, fun _ parent hparent i hi hne =>
          (hall parent hparent i hi).resolve_left fun hkeep => hne (List.mem_singleton.1 hkeep)⟩
    obtain ⟨hsteps, hdisplaced⟩ := hsteps
    exact hsteps.trans (.tail (.single (.plan (.link (hp.mono hsteps.grows.1) htarget
      (hchild.mono hsteps.grows.1) hdisplaced) hallowed)) (.member fun h => by cases h))

theorem unlink_steps {p : Parent} {target : Resource} {child : Known} {path : String} {value : Json}
    {u : Unit} (hp : site.Stands w.plan.commands p)
    (htarget : site.registry.schema.target? p.relationship = some target)
    (hchild : site.Knows w.plan.commands target child.existing? child.reference)
    (h : (site.unlink p target child path value).run.run w = (.ok u, after)) : site.Steps w after := by
  obtain ⟨found, _, hmember, hunlink⟩ := bind_eq_ok h
  obtain rfl := isMember_eq_ok hmember
  split at hunlink
  · exact (planUnlink_steps hp htarget hchild hunlink).1
  · exact issue_steps hunlink

theorem planDelete_steps {r : Resource} {k : Known} {u : Unit}
    (hr : site.registry.schema.resource? r.name = some r)
    (hk : site.Knows w.plan.commands r k.existing? k.reference)
    (h : (site.planDelete r k).run.run w = (.ok u, after)) : site.Steps w after := by
  obtain ⟨_, _, hpermit, h⟩ := bind_eq_ok h
  obtain ⟨hallowed, rfl⟩ := permit_eq_ok hpermit
  cases h
  exact .single (.plan (.delete hr hk) (by simpa using hallowed))

end NestedResources.WalkSite
