import NestedResources.Proofs.Store.Failures
import NestedResources.Proofs.Write.Consent
import NestedResources.Proofs.Write.Standing

/-!
# Plans are well scoped

Every creation of a plan fills the next slot, and the other commands refer only to slots that were filled before,
with entities of the resources that they expect. Each command is so when it is planned (`WalkSite.Plans.scoped`),
so whole plans are (`WalkSite.Authorised.wellScoped`), and whoever applies them meets neither a slot that is open
nor one out of order (`WriteOp.plan_scoped`).
-/
namespace NestedResources

/-! ## Slots -/

/-- The slot that a command fills, with the resource of what it creates. -/
def Command.slot? : Command → Option (Nat × String)
  | .create slot name _ => some (slot, name)
  | _ => none

/-- The slots that commands fill, in order. -/
def Command.slots (commands : List Command) : List (Nat × String) := commands.filterMap Command.slot?

/-- Whether commands create an entity of a resource for a reference, unless it is to a stored one. -/
def EntityRef.Bound (commands : List Command) (name : String) : EntityRef → Prop
  | .existing _ => True
  | .pending slot => (slot, name) ∈ Command.slots commands

theorem EntityRef.Bound.append {commands : List Command} {name : String} {ref : EntityRef}
    (h : ref.Bound commands name) (rest : List Command) : ref.Bound (commands ++ rest) name := by
  cases ref with
  | existing i => trivial
  | pending slot =>
    change (slot, name) ∈ (commands ++ rest).filterMap Command.slot?
    exact List.filterMap_append ▸ List.mem_append_left _ h

/-- A creation that fills the next slot, or a command about entities that are bound to the resources it expects. -/
inductive Command.Scoped (s : Schema) (before : List Command) : Command → Prop
  | create (name : String) (values : Record) : Scoped s before (.create (slots before).length name values)
  | update {name : String} {target : EntityRef} (values : Record) (htarget : target.Bound before name) :
      Scoped s before (.update name target values)
  | delete {name : String} {target : EntityRef} (htarget : target.Bound before name) :
      Scoped s before (.delete name target)
  | link {c : LinkChange} {owner : Resource} {rel : Relationship} (hthrough : c.Through s owner rel)
      (hparent : c.parent.Bound before c.resource) (hchild : c.child.Bound before rel.target) :
      Scoped s before (.link c)
  | unlink {c : LinkChange} {owner : Resource} {rel : Relationship} (hthrough : c.Through s owner rel)
      (hparent : c.parent.Bound before c.resource) (hchild : c.child.Bound before rel.target) :
      Scoped s before (.unlink c)

/-- Commands that are scoped by those before them, one after the other. -/
inductive Command.WellScoped (s : Schema) : List Command → Prop
  | none : WellScoped s []
  | planned {commands : List Command} {c : Command} (h : WellScoped s commands) (hc : c.Scoped s commands) :
      WellScoped s (commands ++ [c])

namespace Command

variable {s : Schema} {before rest commands : List Command} {c : Command} {p q : Progress} {e : Error}

@[simp] theorem slots_nil : slots [] = [] := rfl

@[simp] theorem slots_append (before rest : List Command) : slots (before ++ rest) = slots before ++ slots rest :=
  List.filterMap_append

@[simp] theorem slots_create (slot : Nat) (name : String) (values : Record) :
    slots [.create slot name values] = [(slot, name)] := rfl

theorem slots_of_slot?_eq_none (h : c.slot? = Option.none) : slots [c] = [] := by
  rw [slots, List.filterMap_cons_none h, List.filterMap_nil]

theorem Scoped.slots_eq (h : c.Scoped s before) :
    (slots [c]).map Prod.fst = (List.range (slots [c]).length).map ((slots before).length + ·) := by
  cases h with
  | create name values => simp
  | _ => rfl

/-- The slots of a plan are numbered in the order of the creations. -/
theorem WellScoped.slots_eq (h : WellScoped s commands) :
    (slots commands).map Prod.fst = List.range (slots commands).length := by
  induction h with
  | none => rfl
  | planned _ hc ih => rw [slots_append, List.map_append, ih, hc.slots_eq, List.length_append, List.range_add]

theorem WellScoped.of_append (h : WellScoped s commands) (hsplit : commands = before ++ rest) :
    WellScoped s before := by
  induction h generalizing rest with
  | none =>
    obtain ⟨rfl, -⟩ := List.append_eq_nil_iff.1 hsplit.symm
    exact .none
  | @planned commands c h hc ih =>
    rcases List.eq_nil_or_concat rest with rfl | ⟨rest, last, rfl⟩
    · rw [List.append_nil] at hsplit
      exact hsplit ▸ h.planned hc
    · rw [List.concat_eq_append, ← List.append_assoc] at hsplit
      exact ih (List.append_inj' hsplit rfl).1

/-- What a command refers to is bound by the commands before it. -/
theorem WellScoped.scoped (h : WellScoped s commands) (hsplit : commands = before ++ c :: rest) :
    c.Scoped s before := by
  induction h generalizing rest with
  | none => exact absurd hsplit.symm (List.append_ne_nil_of_right_ne_nil _ (List.cons_ne_nil _ _))
  | @planned commands c' h hc ih =>
    rcases List.eq_nil_or_concat rest with rfl | ⟨rest, last, rfl⟩
    · obtain ⟨rfl, hlast⟩ := List.append_inj' hsplit rfl
      cases hlast
      exact hc
    · rw [List.concat_eq_append, ← List.cons_append, ← List.append_assoc] at hsplit
      exact ih (List.append_inj' hsplit rfl).1

/-- The next slot is the number of creations so far. -/
theorem WellScoped.pending_eq (h : WellScoped s commands) : (Plan.mk commands).pending = (slots commands).length := by
  induction h with
  | none => rfl
  | @planned commands c h hc ih =>
    rw [slots_append, List.length_append, ← ih, Plan.pending, List.foldl_append]
    cases hc with
    | create name values =>
      change max (Plan.mk commands).pending _ = _
      rw [← ih, slots_create, List.length_singleton]
      omega
    | _ => rfl

theorem lt_of_mem_slots (h : WellScoped s commands) {slot : Nat} {name : String}
    (hslot : (slot, name) ∈ slots commands) : slot < (slots commands).length := by
  have hmem := List.mem_map_of_mem (f := Prod.fst) hslot
  rwa [h.slots_eq, List.mem_range] at hmem

/-- Every reference of a command is bound to some resource. -/
theorem Scoped.bound (h : c.Scoped s before) : ∀ ref ∈ c.references, ∃ name, ref.Bound before name := by
  intro ref href
  cases h with
  | create => cases href
  | update _ htarget | delete htarget => exact List.mem_singleton.1 href ▸ ⟨_, htarget⟩
  | link _ hparent hchild | unlink _ hparent hchild =>
    rcases List.mem_pair.1 href with rfl | rfl
    · exact ⟨_, hparent⟩
    · exact ⟨_, hchild⟩

/-! ## Runs -/

/-- Every creation of a run fills one slot. -/
theorem length_created_of_run (h : commands.foldlM (Progress.apply s) p = .ok q) :
    q.created.length = p.created.length + (slots commands).length := by
  induction commands generalizing p with
  | nil =>
    cases h
    rfl
  | cons c commands ih =>
    rw [List.foldlM_cons] at h
    obtain ⟨between, hfirst, hrest⟩ := Except.bind_eq_ok.1 h
    rw [ih hrest, ← List.singleton_append, slots_append, List.length_append]
    cases c with
    | create slot name values =>
      obtain ⟨i, -, -, hcreated⟩ := Progress.created_of_create hfirst
      rw [hcreated, List.length_append, slots_create, List.length_singleton, List.length_singleton, Nat.add_assoc]
    | _ =>
      rw [Progress.created_of_apply hfirst (by simp), slots_of_slot?_eq_none rfl, List.length_nil, Nat.zero_add]


/-- A command is applied after those that bind what it refers to, so it never fails for what the plan is like. -/
theorem WellScoped.not_fails (h : WellScoped s commands) (hc : c.Scoped s commands)
    (hcreated : p.created.length = (slots commands).length) (slot : Nat) :
    ¬p.Fails c (.store (.pendingUnknown slot)) ∧ ¬p.Fails c (.store (.slotOutOfOrder slot)) := by
  constructor
  · rintro (_ | _ | _ | _ | ⟨href, hopen⟩)
    obtain ⟨name, hbound⟩ := hc.bound _ href
    have hlt := lt_of_mem_slots h hbound
    rw [List.getElem?_eq_none_iff] at hopen
    omega
  · rintro (_ | _ | _ | _ | _ | ⟨rfl, hslot⟩)
    cases hc
    exact hslot hcreated.symm

end Command

namespace Plan

open Command

variable {s : Schema} {store after : Store} {plan : Plan} {report : Report} {roots : List EntityRef}

/-- A plan that is well scoped is applied without faults of its own. -/
theorem apply_ne_of_wellScoped (h : WellScoped s plan.commands) (store : Store) (slot : Nat) :
    store.apply s plan ≠ .error (.store (.pendingUnknown slot)) ∧
      store.apply s plan ≠ .error (.store (.slotOutOfOrder slot)) := by
  have hfault : ∀ e, store.apply s plan = .error e → (∀ fault, e ≠ .conflict fault) →
      ∃ c commands p, WellScoped s commands ∧ c.Scoped s commands ∧
        p.created.length = (slots commands).length ∧ Progress.Fails p c e := by
    intro e herror hnot
    rcases Store.apply_eq_error herror with ⟨fault, rfl⟩ | ⟨before, c, rest, p, hsplit, hrun, hfails⟩
    · exact absurd rfl (hnot fault)
    · refine ⟨c, before, p, h.of_append hsplit, h.scoped hsplit, ?_, hfails⟩
      rw [length_created_of_run hrun, List.length_nil, Nat.zero_add]
  constructor
  · intro herror
    obtain ⟨c, commands, p, hcommands, hc, hcreated, hfails⟩ := hfault _ herror nofun
    exact (hcommands.not_fails hc hcreated slot).1 hfails
  · intro herror
    obtain ⟨c, commands, p, hcommands, hc, hcreated, hfails⟩ := hfault _ herror nofun
    exact (hcommands.not_fails hc hcreated slot).2 hfails

end Plan

/-! ## Reports -/

/-- A report that has one identity for each creation of a plan, in order, and for every reference. -/
structure Report.Fits (report : Report) (plan : Plan) (roots : List EntityRef) : Prop where
  created : report.created.length = (Command.slots plan.commands).length
  resolves : ∀ c ∈ plan.commands, ∀ ref ∈ c.references, (report.resolve? ref).isSome = true
  identities : (Outcome.ofReport plan roots report).identities.map some = roots.map report.resolve?
  listed : (Outcome.ofReport plan roots report).created =
    ((Command.slots plan.commands).map Prod.snd).zip report.created

/-- What is there for every item is all that a filter keeps. -/
theorem map_some_filterMap {α β : Type} {f : α → Option β} {items : List α}
    (h : ∀ a ∈ items, (f a).isSome = true) : (items.filterMap f).map some = items.map f := by
  rw [List.map_filterMap_some_eq_filter_map_isSome, List.filter_eq_self]
  intro b hb
  obtain ⟨a, ha, rfl⟩ := List.mem_map.1 hb
  exact h a ha

namespace Report

open Command

variable {s : Schema} {store after : Store} {plan : Plan} {report : Report} {roots : List EntityRef}

theorem length_created (h : store.apply s plan = .ok (after, report)) :
    report.created.length = (slots plan.commands).length := by
  obtain ⟨p, hrun, hdone⟩ := Except.bind_eq_ok.1 h
  split at hdone
  · cases hdone
  · cases hdone
    rw [length_created_of_run hrun, List.length_nil, Nat.zero_add]

theorem isSome_resolve? (h : WellScoped s plan.commands)
    (hcreated : report.created.length = (slots plan.commands).length) {ref : EntityRef} {name : String}
    (hbound : ref.Bound plan.commands name) : (report.resolve? ref).isSome = true := by
  cases ref with
  | existing i => rfl
  | pending slot =>
    have hlt := lt_of_mem_slots h hbound
    rw [resolve?, List.getElem?_eq_getElem (hcreated ▸ hlt)]
    rfl

/-- The creations of a plan are listed with their identities. -/
theorem listed_eq (h : WellScoped s plan.commands)
    (hcreated : report.created.length = (slots plan.commands).length) :
    (Outcome.ofReport plan roots report).created = ((slots plan.commands).map Prod.snd).zip report.created := by
  have hlisted : (Outcome.ofReport plan roots report).created =
      (slots plan.commands).filterMap fun e => report.created[e.1]?.map (e.2, ·) := by
    rw [slots, List.filterMap_filterMap]
    refine List.filterMap_congr fun c _ => ?_
    cases c <;> rfl
  have hfound : ∀ e ∈ slots plan.commands, (report.created[e.1]?.map (e.2, ·)).isSome = true := by
    intro e he
    rw [Option.isSome_map]
    exact @isSome_resolve? _ _ _ h hcreated (.pending e.1) _ he
  apply List.map_injective_iff.2 fun _ _ => Option.some.inj
  rw [hlisted, map_some_filterMap hfound]
  refine List.ext_getElem (by simp [hcreated]) fun n hn hzip => ?_
  rw [List.length_map] at hn
  have hlength : n < ((slots plan.commands).map Prod.fst).length := by rwa [List.length_map]
  have hslot := List.getElem_of_eq h.slots_eq hlength
  rw [List.getElem_map, List.getElem_range] at hslot
  simp [hslot, List.getElem?_eq_getElem (hcreated ▸ hn)]

theorem fits (h : WellScoped s plan.commands) (hroots : ∀ ref ∈ roots, ∃ name, ref.Bound plan.commands name)
    (hok : store.apply s plan = .ok (after, report)) : report.Fits plan roots := by
  have hcreated := length_created hok
  have hresolves : ∀ ref, (∃ name, ref.Bound plan.commands name) → (report.resolve? ref).isSome = true :=
    fun ref ⟨name, hbound⟩ => isSome_resolve? h hcreated hbound
  refine ⟨hcreated, fun c hc ref href => ?_, ?_, listed_eq h hcreated⟩
  · obtain ⟨before, rest, hsplit⟩ := List.append_of_mem hc
    obtain ⟨name, hbound⟩ := (h.scoped hsplit).bound ref href
    exact hresolves ref ⟨name, hsplit ▸ hbound.append _⟩
  · exact map_some_filterMap fun ref href => hresolves ref (hroots ref href)

end Report

namespace WalkSite

open Command

variable {site : WalkSite} {log : List Consultation} {commands : List Command}

theorem Knows.bound {r : Resource} {stored : Option Record} {ref : EntityRef}
    (h : site.Knows commands r stored ref) : ref.Bound commands r.name := by
  cases ref with
  | existing i => trivial
  | pending slot =>
    obtain ⟨-, values, hcreate⟩ := h
    exact List.mem_filterMap.2 ⟨_, hcreate, rfl⟩

/-- A command is scoped by the commands before it when it is planned. -/
theorem Plans.scoped {c : Command} {qs : List Question} (hcommands : WellScoped site.registry.schema commands)
    (h : site.Plans log commands c qs) : c.Scoped site.registry.schema commands := by
  cases h with
  | create => exact hcommands.pending_eq ▸ .create ..
  | update _ _ hknows => exact .update _ hknows.bound
  | delete _ hknows => exact .delete hknows.bound
  | link hp htarget hchild =>
    exact .link ⟨hp.resource, hp.relationship⟩ hp.knows.bound (Schema.name_of_resource? htarget ▸ hchild.bound)
  | unlink hp htarget hchild =>
    exact .unlink ⟨hp.resource, hp.relationship⟩ hp.knows.bound (Schema.name_of_resource? htarget ▸ hchild.bound)

theorem Authorised.wellScoped (h : site.Authorised log commands) : WellScoped site.registry.schema commands := by
  induction h with
  | none => exact .none
  | asked _ _ ih => exact ih
  | planned _ hplans _ ih => exact ih.planned (hplans.scoped ih)

end WalkSite

namespace WriteOp

open Command

/-- What a write plans is well scoped: its creations fill the slots 0, 1, 2 and so on, in order, and every other
command refers to stored entities and to those that a creation before it makes, of the resources that it expects.
Whatever the store is by the commit, it never finds a slot that is referred to before it is filled, or one out of
order. When the commit goes well, every reference has an identity, and the outcome lists exactly one for each
creation, in order, and one for each entity at the top. -/
theorem plan_scoped (op : WriteOp) (site : WalkSite) {roots : List EntityRef} {w : Walk}
    (h : (op.walk site).run.run {} = (.ok roots, w)) :
    (slots w.plan.commands).map Prod.fst = List.range (slots w.plan.commands).length ∧
      (∀ before c rest, w.plan.commands = before ++ c :: rest → c.Scoped site.registry.schema before) ∧
      (∀ ref ∈ roots, ref.Bound w.plan.commands op.resource) ∧
      ∀ store : Store,
        (∀ slot, store.apply site.registry.schema w.plan ≠ .error (.store (.pendingUnknown slot)) ∧
          store.apply site.registry.schema w.plan ≠ .error (.store (.slotOutOfOrder slot))) ∧
        ∀ after report, store.apply site.registry.schema w.plan = .ok (after, report) →
          report.Fits w.plan roots := by
  have hscoped := (sound h).authorised.wellScoped
  obtain ⟨-, r, hr, hrefer⟩ := walks WalkSite.sound_empty h
  have hroots : ∀ ref ∈ roots, ref.Bound w.plan.commands op.resource := by
    intro ref href
    obtain ⟨stored, hknows⟩ := hrefer ref href
    exact Schema.name_of_resource? hr ▸ hknows.bound
  refine ⟨hscoped.slots_eq, fun before c rest => hscoped.scoped, hroots, fun store =>
    ⟨Plan.apply_ne_of_wellScoped hscoped store, fun after report => Report.fits hscoped fun ref href => ?_⟩⟩
  exact ⟨op.resource, hroots ref href⟩

end WriteOp

namespace Music

/-- An album that is new, by an artist who is new. -/
def newAlbum : WriteOp :=
  .create "albums" (.obj [("album_id", .int 7), ("artist", .obj [("artist_id", .str "new")])])

theorem newAlbum_scoped : ∃ roots w after report,
    (newAlbum.walk (labelSite "old")).run.run {} = (.ok roots, w) ∧
    Command.slots w.plan.commands = [(0, "albums"), (1, "artists")] ∧
    Store.apply labels.schema ⟨labelTables "old", 0⟩ w.plan = .ok (after, report) ∧
    report.Fits w.plan roots ∧
    (Outcome.ofReport w.plan roots report).created.map (Prod.map id Identity.key) =
      [("albums", "7"), ("artists", "new")] := by
  have hok : ((newAlbum.walk (labelSite "old")).run.run {}).1.isOk = true := by decide +kernel
  obtain ⟨roots, hroots⟩ := Except.exists_of_isOk hok
  have hcommits : (Store.apply labels.schema ⟨labelTables "old", 0⟩
      ((newAlbum.walk (labelSite "old")).run.run {}).2.plan).isOk = true := by decide +kernel
  have hkeys : (Store.apply labels.schema ⟨labelTables "old", 0⟩
      ((newAlbum.walk (labelSite "old")).run.run {}).2.plan).toOption.map (·.2.created.map Identity.key) =
        some ["7", "new"] := by decide +kernel
  obtain ⟨⟨after, report⟩, hreport⟩ := Except.exists_of_isOk hcommits
  have hscoped := WriteOp.plan_scoped newAlbum (labelSite "old") (Prod.ext hroots rfl)
  have hfits := (hscoped.2.2.2 ⟨labelTables "old", 0⟩).2 after report hreport
  have hslots : Command.slots ((newAlbum.walk (labelSite "old")).run.run {}).2.plan.commands =
      [(0, "albums"), (1, "artists")] := by decide +kernel
  refine ⟨roots, _, after, report, Prod.ext hroots rfl, hslots, hreport, hfits, ?_⟩
  have hcreated : report.created.map Identity.key = ["7", "new"] := by
    rw [hreport] at hkeys
    exact Option.some.inj hkeys
  rw [hfits.listed, hslots, ← List.zip_map_right, hcreated]
  rfl

end Music

end NestedResources
