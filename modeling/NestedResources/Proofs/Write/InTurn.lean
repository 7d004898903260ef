import NestedResources.Proofs.Write.Clauses
import NestedResources.Proofs.Write.Turns

/-!
# A document in its turn follows the document alone

The objects of a document are opened, their fields are read, and their entities are placed and attached as
they are when the document is walked alone. By induction over documents the whole turn follows the walk
alone (`Turn.visit_follows`), and by induction over an array its walk collects what its documents have to
report (`WalkSite.visitRoots_collects`).
-/
namespace NestedResources

/-! ## What a document calls its entities -/

namespace WalkSite

variable (site : WalkSite)

/-- What an object calls its entity, by resource and key. -/
def namesOf (r : Resource) (members : List (String × Json)) : List (String × String) :=
  match r.identityIn? members with
  | some i => (site.keysOf r i).map (r.name, ·)
  | none => []

/-- What a document calls entities anywhere. -/
def names (r : Resource) (document : Json) : List (String × String) :=
  document.objects.flatMap (site.namesOf r) ++
    (clausesBelow site.registry.schema r document).flatMap fun c => c.raw.objects.flatMap (site.namesOf c.target)

variable {site} {r : Resource} {members : List (String × Json)} {names : List (String × String)}

theorem mem_of_namesOf (h : site.namesOf r members ⊆ names) {i : Identity} (hi : r.identityIn? members = some i) :
    ∀ key ∈ site.keysOf r i, (r.name, key) ∈ names := by
  rw [namesOf, hi] at h
  exact fun key hkey => h (List.mem_map_of_mem hkey)

end WalkSite

/-- Whether no path in a document reads like that of the whole document, or like none at all. -/
structure PathsApart (r : Resource) (members : List (String × Json)) : Prop where
  apart : ∀ m ∈ members, m.1 ≠ "$"
  required : ∀ f ∈ r.fields, f.requiredOnInput = true → f.name ≠ "$"
  walked : ∀ m ∈ members, (r.relationship? m.1).isSome = true → m.1 ≠ ""

/-- An object that has an identity has a member for each part of it. -/
theorem Resource.exists_member_of_identityIn? {s : Schema} {r : Resource} (hr : s.resource? r.name = some r)
    {members : List (String × Json)} {i : Identity} (hi : r.identityIn? members = some i) {name : String}
    (hname : name ∈ r.identity) : ∃ m ∈ members, m.1 = name := by
  obtain ⟨-, hdeclared, -⟩ := Schema.faultless_of_resource? hr
  obtain ⟨f, hf⟩ := hdeclared name hname
  have hfield : f ∈ r.identityFields := List.mem_filterMap.2 ⟨name, hname, hf⟩
  obtain ⟨v, raw, hraw, -⟩ := Except.exists_of_forall₂ (identityIn?_eq_some hi) hfield
  refine ⟨_, Entries.mem_of_get? hraw, ?_⟩
  simpa using List.find?_some hf

/-- The scope of an object in its turn. -/
def Scope.later (s : Scope) (t : Turn) : Scope :=
  { s with
    path := pathUnder t.index s.path
    position := s.position.later t.slots
    known := s.known.map (Known.later t.slots) }

namespace Scope

variable (s : Scope) (t : Turn)

@[simp] theorem resource_later : (s.later t).resource = s.resource := rfl

@[simp] theorem path_later : (s.later t).path = pathUnder t.index s.path := rfl

@[simp] theorem position_later : (s.later t).position = s.position.later t.slots := rfl

@[simp] theorem identity_later : (s.later t).identity = s.identity := rfl

@[simp] theorem known_later : (s.later t).known = s.known.map (Known.later t.slots) := rfl

@[simp] theorem creating_later : (s.later t).creating = s.creating := Option.isNone_map

@[simp] theorem existing_later : (s.later t).existing = s.existing := by
  rw [existing, existing, later, Option.bind_map]
  rfl

@[simp] theorem change_later (subject : Subject) (value : Json) :
    (s.later t).change subject value = s.change subject value := by
  simp [change, action]

end Scope

namespace Turn

open Walking

variable {t : Turn} {n : Nat} {site : WalkSite} {r : Resource} {path : String} {position : Position}
  {members : List (String × Json)}

/-- Whether a document stands at the top of a creation, or below a parent that is held. -/
def Places (t : Turn) (n : Nat) : Position → Prop
  | .root .create => True
  | .root _ => False
  | .nested p => p.reference.Held t.names n p.resource.name

theorem Places.mono {m : Nat} (h : t.Places m position) (hmn : m ≤ n) : t.Places n position := by
  cases position with
  | root root => cases root <;> exact h
  | nested p => exact EntityRef.Held.mono h hmn

theorem Places.identity? (h : t.Places n position) : position.identity? = none := by
  cases position with
  | nested p => rfl
  | root root =>
    cases root with
    | update i => cases h
    | _ => rfl

/-! ## Opening -/

/-- An object is opened alike: it is settled, or its entity is to be written. -/
inductive Opens (t : Turn) (n : Nat) (r : Resource) (members : List (String × Json)) : Opened → Opened → Prop
  | settled (visited visited' : Option Visited) : Opens t n r members (.settled visited) (.settled visited')
  | entered (op : Option DocumentOp) (known : Option Known)
      (hknown : ∀ k ∈ known, k.reference.Held t.names n r.name) :
      Opens t n r members (.entered op (r.identityIn? members) known)
        (.entered op (r.identityIn? members) (known.map (Known.later t.slots)))

theorem join_ne_root {names : List String} (h : "$" ∉ names) : Text.join "," names ≠ "$" := by
  cases names with
  | nil => exact nofun
  | cons name names =>
    cases names with
    | nil => exact fun heq => h (List.mem_singleton.2 heq.symm)
    | cons other names =>
      intro heq
      have hcomma : ',' ∈ "$".toList := by
        rw [← heq, show Text.join "," (name :: other :: names) = name ++ "," ++ Text.join "," (other :: names) from rfl,
          String.toList_append, String.toList_append]
        exact List.mem_append_left _ (List.mem_append_right _ (List.mem_singleton.2 rfl))
      simp at hcomma

/-- An object with an identity is looked up before anything else is done with it. -/
theorem finds_follows {β : Type} {next next' : Option Known → Walking β} {R : Nat → β → β → Prop}
    (happart : site.TellsApart) (hr : site.registry.schema.resource? r.name = some r)
    (hnames : site.namesOf r members ⊆ t.names)
    (hnext : ∀ n' known, n ≤ n' →
      (∀ k ∈ known, k.reference.Held t.names n' r.name ∧ ∃ i, r.identityIn? members = some i) →
      t.Follows n' (next known) (next' (known.map (Known.later t.slots))) R) :
    t.Follows n
      (match r.identityIn? members with
        | some i => do
          let known ← site.lookup r i
          next known
        | none => do
          let known ← pure none
          next known)
      (match r.identityIn? members with
        | some i => do
          let known ← site.lookup r i
          next' known
        | none => do
          let known ← pure none
          next' known) R := by
  cases hi : r.identityIn? members with
  | none => exact hnext n none (Nat.le_refl n) fun k hk => by cases hk
  | some i =>
    refine (lookup_follows happart hr hi (WalkSite.mem_of_namesOf hnames hi)).bind fun n' known found hn' => ?_
    rintro ⟨rfl, hheld⟩
    exact hnext n' known hn' fun k hk => ⟨hheld k hk, i, hi⟩

theorem openObject_follows (happart : site.TellsApart) (hr : site.registry.schema.resource? r.name = some r)
    (hnames : site.namesOf r members ⊆ t.names) (hposition : t.Places n position) (hpath : path ≠ "$")
    (hroot : path = "" → PathsApart r members) :
    t.Follows n (site.openObject r path position members)
      (site.openObject r (pathUnder t.index path) (position.later t.slots) members)
      fun n' a b => t.Opens n' r members a b := by
  unfold WalkSite.openObject
  refine (Follows.lift _).bind fun n₁ op _ hn₁ => ?_
  rintro ⟨rfl, -⟩
  simp only [WalkSite.identityOf, Position.identity?_later, hposition.identity?, pure_bind]
  refine finds_follows happart hr hnames fun n₂ known hn₂ hfound => ?_
  cases known with
  | none =>
    simp only [Option.map_none]
    split
    · cases r.identityIn? members with
      | none => exact .throw
      | some i => exact .throw
    · exact .pure fun _ _ => .entered op none fun k hk => by cases hk
  | some k =>
    obtain ⟨hk, i, hi⟩ := hfound k rfl
    cases position with
    | root root =>
      cases root with
      | create =>
        refine (issue_follows (issuePath_joinPath t.index fun hempty => ?_) _).bind fun _ _ _ _ _ => .pure fun _ _ =>
          .settled none none
        refine join_ne_root fun hname => ?_
        obtain ⟨m, hm, hroots⟩ := Resource.exists_member_of_identityIn? hr hi hname
        exact (hroot hempty).apart m hm hroots
      | _ => cases hposition
    | nested p =>
      have hp := EntityRef.Held.mono hposition (Nat.le_trans hn₁ hn₂)
      simp only [Option.map_some, Position.later]
      split
      · exact (unlink_follows hp hk.clear hpath).bind fun _ _ _ _ _ => .pure fun _ _ => .settled _ _
      · refine .pure fun n' hn' => .entered op (some k) fun k' hk' => ?_
        exact Option.some.inj hk' ▸ hk.mono hn'

/-! ## Fields -/

/-- A value is checked alike, wherever its issues are reported. -/
theorem check_under {f : Field} {path' : String} {raw : Json} (h : path' = issuePath t.index path) :
    f.check path' raw = (f.check path raw).mapError (List.map (Issue.under t.index)) := by
  subst h
  unfold Field.check
  split
  · split
    · rfl
    · rfl
  · split
    · rfl
    · split
      · rfl
      · simp [Except.mapError, Issue.under]

variable {s : Scope}

theorem readField_follows {values : Record} {key : String} {raw : Json} (hkey : s.path = "" → key ≠ "$") :
    t.Follows n (site.readField s values key raw) (site.readField (s.later t) values key raw) Same := by
  have hpath := issuePath_joinPath t.index hkey
  unfold WalkSite.readField
  simp only [Scope.creating_later, Scope.change_later, Scope.resource_later, Scope.path_later, Scope.known_later]
  cases s.resource.field? key with
  | none => exact (issue_follows hpath _).bind fun _ _ _ _ _ => .pure fun _ _ => rfl
  | some field =>
    simp only [check_under hpath]
    cases field.check (joinPath s.path key) raw with
    | error found => exact (addIssues_follows rfl).bind fun _ _ _ _ _ => .pure fun _ _ => rfl
    | ok value =>
      simp only [Except.mapError, Option.any_map, Known.record_later]
      split
      · exact .pure fun _ _ => rfl
      · split
        · exact (issue_follows hpath _).bind fun _ _ _ _ _ => .pure fun _ _ => rfl
        · split
          · exact (issue_follows hpath _).bind fun _ _ _ _ _ => .pure fun _ _ => rfl
          · exact (permit_follows _ _).bind fun _ _ _ _ _ => .pure fun _ _ => rfl

/-- The fields of an object are read alike. -/
theorem readFields_follows (hmembers : s.path = "" → ∀ m ∈ members, m.1 ≠ "$") :
    t.Follows n (site.readFields s members) (site.readFields (s.later t) members) Same := by
  unfold WalkSite.readFields
  generalize Dict.empty = values
  induction members generalizing values n with
  | nil => exact .pure fun _ _ => rfl
  | cons m members ih =>
    rw [List.foldlM_cons, List.foldlM_cons]
    refine Follows.bind (R := Same) ?_ fun n' next _ _ hnext => hnext ▸ ih (fun hpath m hm =>
      hmembers hpath m (List.mem_cons_of_mem _ hm)) next
    obtain ⟨key, raw⟩ := m
    dsimp only
    by_cases hskip : key = DocumentOp.key ∨ key = selfKey ∨ (s.resource.relationship? key).isSome
    · have hskip' : key = DocumentOp.key ∨ key = selfKey ∨ ((s.later t).resource.relationship? key).isSome := hskip
      rw [if_pos hskip, if_pos hskip']
      exact .pure fun _ _ => rfl
    · have hread : ¬(key = DocumentOp.key ∨ key = selfKey ∨ ((s.later t).resource.relationship? key).isSome) := hskip
      rw [if_neg hskip, if_neg hread]
      exact readField_follows fun hpath => hmembers hpath (key, raw) List.mem_cons_self

/-- The fields that an object lacks are reported alike. -/
theorem requireFields_follows (hrequired : s.path = "" →
    ∀ f ∈ s.resource.fields, f.requiredOnInput = true → f.name ≠ "$") :
    t.Follows n (WalkSite.requireFields s members) (WalkSite.requireFields (s.later t) members) Any := by
  have hlinked : linkedColumns s.resource (s.position.later t.slots) members =
      linkedColumns s.resource s.position members := by
    cases s.position <;> rfl
  unfold WalkSite.requireFields
  simp only [Scope.creating_later, Scope.resource_later, Scope.path_later, Scope.position_later, hlinked]
  refine .forM fun f hf n' _ => ?_
  split
  · exact .pure fun _ _ => trivial
  · refine issue_follows (issuePath_joinPath t.index fun hempty => ?_) _
    obtain ⟨hmem, hinput⟩ := List.mem_filter.1 hf
    exact hrequired hempty f hmem hinput

/-! ## Placing and attaching -/

/-- What is known of an entity is noted alike, if the object names it. -/
theorem noted_follows {k : Known} (hidentity : ∀ i ∈ s.identity, (s.resource.name, i.key) ∈ t.names)
    (hk : k.reference.Held t.names n s.resource.name) :
    t.Follows n
      (do
        match s.identity with
        | some i => learn s.resource.name i.key k
        | none => pure ()
        pure k.reference : Walking EntityRef)
      (do
        match s.identity with
        | some i => learn s.resource.name i.key (k.later t.slots)
        | none => pure ()
        pure (k.later t.slots).reference)
      fun n' a b => b = a.later t.slots ∧ a.Held t.names n' s.resource.name := by
  cases hi : s.identity with
  | none => exact .pure fun n' hn' => ⟨rfl, hk.mono hn'⟩
  | some i =>
    refine (learn_follows (hidentity i hi) hk).bind fun n₁ _ _ hn₁ _ => .pure fun n' hn' => ⟨rfl, ?_⟩
    exact hk.mono (Nat.le_trans hn₁ hn')

theorem Mirrors.create {v w : Walk} (h : t.Mirrors v w) (resource : String) (values : Record) :
    t.Mirrors { v with plan := (v.plan.create resource values).1 }
      { w with plan := (w.plan.create resource values).1 } where
  pending := by
    simp only [Plan.pending_push_create, h.pending]
    omega
  issues := h.issues
  known := h.known
  held := fun name k hk => by
    rw [Plan.pending_push_create]
    exact (h.held name k hk).mono (Nat.le_succ _)
  memberships := h.memberships
  told := ⟨h.told.known, fun e he => (h.told.memberships e he).imp id fun ⟨slot, hslot, hkey⟩ =>
    ⟨slot, by rw [Plan.pending_push_create]; exact Nat.lt_succ_of_lt hslot, hkey⟩⟩

/-- The entity of an object is placed alike; a new one takes a slot after those before. -/
theorem place_follows {values : Record} (hidentity : ∀ i ∈ s.identity, (s.resource.name, i.key) ∈ t.names)
    (hknown : ∀ k ∈ s.known, k.reference.Held t.names n s.resource.name) :
    t.Follows n (site.place s members values) (site.place (s.later t) members values)
      fun n' a b => b = a.later t.slots ∧ a.Held t.names n' s.resource.name := by
  unfold WalkSite.place
  simp only [Scope.change_later, Scope.resource_later, Scope.known_later, Scope.identity_later]
  cases hs : s.known with
  | none =>
    simp only [Option.map_none]
    refine (permit_follows _ _).bind fun n₁ _ _ hn₁ _ => ?_
    intro v w hm hn a v' hrun
    have hnew : (EntityRef.pending v.plan.pending).Held t.names (v.plan.pending + 1) s.resource.name :=
      Nat.lt_succ_self _
    have hlater : Known.later t.slots ⟨.pending v.plan.pending, values, true⟩ =
        ⟨.pending w.plan.pending, values, true⟩ := by
      rw [hm.pending]
      rfl
    have hgrows := Plan.pending_push_create v.plan s.resource.name values
    obtain ⟨b, w', hfollows, hafter, hle, hresult⟩ :=
      noted_follows (k := ⟨.pending v.plan.pending, values, true⟩) hidentity hnew
        { v with plan := (v.plan.create s.resource.name values).1 }
        { w with plan := (w.plan.create s.resource.name values).1 }
        (hm.create s.resource.name values) (Nat.le_of_eq hgrows.symm) a v' hrun
    rw [hlater] at hfollows
    rw [hgrows] at hle
    exact ⟨b, w', hfollows, hafter, Nat.le_of_succ_le hle, hresult⟩
  | some k =>
    have hk := hknown k hs
    simp only [Option.map_some]
    split
    · refine (permit_follows _ _).bind fun n₁ _ _ hn₁ _ => ?_
      refine (command_follows (by simp) (by simp)).bind fun n₂ _ _ hn₂ _ => ?_
      exact noted_follows (k := { k with record := k.record.union values }) hidentity
        (hk.mono (Nat.le_trans hn₁ hn₂))
    · exact .pure fun n' hn' => ⟨rfl, hk.mono hn'⟩

/-- The entity of an object is attached alike to the entity around it. -/
theorem attach_follows (happart : site.TellsApart)
    (hr : site.registry.schema.resource? s.resource.name = some s.resource) (hposition : t.Places n s.position)
    {reference : EntityRef} (hreference : reference.Held t.names n s.resource.name) (hpath : s.path ≠ "$")
    {op : Option DocumentOp} :
    t.Follows n (site.attach s op members reference)
      (site.attach (s.later t) op members (reference.later t.slots)) Any := by
  unfold WalkSite.attach
  simp only [Scope.position_later]
  cases hs : s.position with
  | root root => exact .pure fun _ _ => trivial
  | nested p =>
    rw [hs] at hposition
    have hlater : (s.known.map (Known.later t.slots)).map Known.record = s.known.map Known.record := by
      rw [Option.map_map]
      rfl
    have hcreated : (s.known.map (Known.later t.slots)).any Known.created = s.known.any Known.created := by
      rw [Option.any_map]
      rfl
    simp only [Position.later, Scope.resource_later, Scope.path_later, Scope.known_later, Scope.creating_later,
      hlater, hcreated]
    exact link_follows happart hr hposition hreference.clear hpath

/-! ## Documents -/

/-- The fields of an entity are read and required alike, and it is placed and attached alike. -/
theorem entered_follows (happart : site.TellsApart)
    (hr : site.registry.schema.resource? s.resource.name = some s.resource) (hposition : t.Places n s.position)
    (hidentity : ∀ i ∈ s.identity, (s.resource.name, i.key) ∈ t.names)
    (hknown : ∀ k ∈ s.known, k.reference.Held t.names n s.resource.name) (hpath : s.path ≠ "$")
    (hroot : s.path = "" → PathsApart s.resource members) {op : Option DocumentOp}
    (hwalk : ∀ n' reference, n ≤ n' → reference.Held t.names n' s.resource.name →
      t.Follows n' (site.visitRelationships s reference .patch members)
        (site.visitRelationships (s.later t) (reference.later t.slots) .patch members) Any) :
    t.Follows n
      (do
        let values ← site.readFields s members
        if s.creating || decide (WriteMode.patch = .replace) then WalkSite.requireFields s members
        let reference ← site.place s members values
        site.attach s op members reference
        site.visitRelationships s reference .patch members
        pure (some ⟨reference, false⟩) : Walking (Option Visited))
      (do
        let values ← site.readFields (s.later t) members
        if (s.later t).creating || decide (WriteMode.patch = .replace) then
          WalkSite.requireFields (s.later t) members
        let reference ← site.place (s.later t) members values
        site.attach (s.later t) op members reference
        site.visitRelationships (s.later t) reference .patch members
        pure (some ⟨reference, false⟩) : Walking (Option Visited)) Any := by
  have hplaced : ∀ n' values, n ≤ n' → t.Follows n'
      (do
        let reference ← site.place s members values
        site.attach s op members reference
        site.visitRelationships s reference .patch members
        pure (some ⟨reference, false⟩) : Walking (Option Visited))
      (do
        let reference ← site.place (s.later t) members values
        site.attach (s.later t) op members reference
        site.visitRelationships (s.later t) reference .patch members
        pure (some ⟨reference, false⟩) : Walking (Option Visited)) Any := by
    intro n₁ values hn₁
    refine (place_follows hidentity fun k hk => (hknown k hk).mono hn₁).bind fun n₂ reference _ hn₂ => ?_
    rintro ⟨rfl, hreference⟩
    refine (attach_follows happart hr (hposition.mono (by omega)) hreference hpath).bind fun n₃ _ _ hn₃ _ => ?_
    exact (hwalk n₃ reference (by omega) (hreference.mono hn₃)).bind fun _ _ _ _ _ => .pure fun _ _ => trivial
  refine (readFields_follows fun hempty => (hroot hempty).apart).bind fun n₁ values _ hn₁ => ?_
  rintro rfl
  rw [Scope.creating_later]
  dsimp only
  split
  · refine (requireFields_follows fun hempty => (hroot hempty).required).bind fun n₂ _ _ hn₂ _ => ?_
    exact hplaced n₂ values (Nat.le_trans hn₁ hn₂)
  · exact hplaced n₁ values hn₁

mutual

/-- The turn of a document follows its walk alone. -/
theorem visit_follows (happart : site.TellsApart) {n : Nat} {r : Resource} {path : String} {position : Position}
    (hr : site.registry.schema.resource? r.name = some r) (hposition : t.Places n position) (hpath : path ≠ "$") :
    ∀ document : Json,
      (∀ members, document = .obj members → site.namesOf r members ⊆ t.names ∧
        (path = "" → PathsApart r members)) →
      (∀ c ∈ clausesBelow site.registry.schema r document, ∀ o ∈ c.raw.objects,
        site.namesOf c.target o ⊆ t.names) →
      t.Follows n (site.visit r path position .patch document)
        (site.visit r (pathUnder t.index path) (position.later t.slots) .patch document) Any
  | .obj members, hown, hbelow => by
    obtain ⟨hnames, hroot⟩ := hown members rfl
    rw [clausesBelow] at hbelow
    rw [WalkSite.visit, WalkSite.visit]
    refine (openObject_follows happart hr hnames hposition hpath hroot).bind fun n₁ opened opened' hn₁ hopens => ?_
    cases hopens with
    | settled visited visited' => exact .pure fun _ _ => trivial
    | entered op known hknown =>
      refine entered_follows (s := ⟨r, path, position, r.identityIn? members, known⟩) happart hr
        (hposition.mono hn₁) (fun i hi => ?_) hknown hpath hroot fun n₂ reference hn₂ hreference => ?_
      · exact WalkSite.mem_of_namesOf hnames hi i.key List.mem_cons_self
      · exact visitRelationships_follows happart hr hreference hpath members
          (fun hempty m hm => ⟨(hroot hempty).apart m hm, (hroot hempty).walked m hm⟩) hbelow
  | .null, _, _ | .bool _, _, _ | .num _, _, _ | .str _, _, _ | .arr _, _, _ => by
    rw [WalkSite.visit, WalkSite.visit]
    · exact (issue_follows (issuePath_pathOrRoot t.index hpath) _).bind fun _ _ _ _ _ => .pure fun _ _ => trivial
    · exact nofun
    · exact nofun
termination_by document => sizeOf document

/-- So do the relationships of an entity. -/
theorem visitRelationships_follows (happart : site.TellsApart) {n : Nat} {s : Scope} {reference : EntityRef}
    {naming : Naming} (hr : site.registry.schema.resource? s.resource.name = some s.resource)
    (hreference : reference.Held t.names n s.resource.name) (hpath : s.path ≠ "$") :
    ∀ members : List (String × Json),
      (s.path = "" → ∀ m ∈ members, m.1 ≠ "$" ∧ ((s.resource.relationship? m.1).isSome = true → m.1 ≠ "")) →
      (∀ c ∈ clauses site.registry.schema s.resource naming members, ∀ o ∈ c.raw.objects,
        site.namesOf c.target o ⊆ t.names) →
      t.Follows n (site.visitRelationships s reference .patch members)
        (site.visitRelationships (s.later t) (reference.later t.slots) .patch members) Any
  | [], _, _ => by
    rw [WalkSite.visitRelationships, WalkSite.visitRelationships]
    exact .pure fun _ _ => trivial
  | (key, raw) :: rest, hroot, hclauses => by
    have hrest : ∀ {n' : Nat}, n ≤ n' → t.Follows n' (site.visitRelationships s reference .patch rest)
        (site.visitRelationships (s.later t) (reference.later t.slots) .patch rest) Any := fun hn' =>
      visitRelationships_follows happart hr (hreference.mono hn') hpath rest
        (fun hempty m hm => hroot hempty m (List.mem_cons_of_mem _ hm))
        fun c hc => hclauses c (mem_clauses_of_mem_rest hc (key, raw))
    rw [WalkSite.visitRelationships, WalkSite.visitRelationships]
    simp only [Scope.resource_later, Scope.path_later, Scope.existing_later]
    split
    · exact hrest (Nat.le_refl n)
    · rename_i hkey
      cases hrel : s.resource.relationship? key with
      | none => exact hrest (Nat.le_refl n)
      | some rel =>
        have hname := Resource.name_of_relationship? hrel
        have hsegment : s.path = "" → rel.name ≠ "$" := fun hempty =>
          hname ▸ (hroot hempty (key, raw) List.mem_cons_self).1
        have hnonempty : joinPath s.path rel.name ≠ "" := by
          by_cases hempty : s.path = ""
          · rw [hempty, joinPath, if_pos rfl, hname]
            exact (hroot hempty (key, raw) List.mem_cons_self).2 (Option.isSome_of_eq_some hrel)
          · exact joinPath_ne_empty hempty rel.name
        have hunder := pathUnder_joinPath t.index hnonempty
        have hfails : ∀ {n' : Nat} d, n ≤ n' → t.Follows n'
            (do
              issue (joinPath s.path rel.name) d
              site.visitRelationships s reference .patch rest)
            (do
              issue (joinPath (pathUnder t.index s.path) rel.name) d
              site.visitRelationships (s.later t) (reference.later t.slots) .patch rest) Any := fun d hn' =>
          (issue_follows (issuePath_joinPath t.index hsegment) d).bind fun _ _ _ hn'' _ => hrest (Nat.le_trans hn' hn'')
        dsimp only
        by_cases hstring : raw.isString = true
        · rw [if_pos hstring, if_pos hstring]
          exact hrest (Nat.le_refl n)
        · rw [if_neg hstring, if_neg hstring]
          split
          · exact hfails _ (Nat.le_refl n)
          · refine (Follows.lift _).bind fun n₁ target _ hn₁ => ?_
            rintro ⟨rfl, hrequire⟩
            have htarget := Schema.require_eq_ok.1 hrequire
            have hresource := Schema.resource?_of_target? htarget
            have hp := hreference.mono hn₁
            have hsaid := fun c h => hclauses c (mem_clauses_of_walked
              (by rw [Resource.walked?, if_neg hkey, hrel]) htarget hstring h)
            have hbelow := fun c hc => hsaid c (.inr hc)
            split
            · cases raw with
              | arr items =>
                rw [clausesBelow] at hbelow
                have hitems := visitItems_follows (p := ⟨s.resource, rel, reference, s.existing⟩) happart 0 hresource
                  hp hnonempty items
                  (fun o ho => hsaid _ (.inl rfl) o (List.mem_filterMap.2 ⟨_, ho, rfl⟩)) hbelow
                rw [← hunder] at hitems
                exact hitems.bind fun n₂ _ _ hn₂ _ => hrest (Nat.le_trans hn₁ hn₂)
              | _ => exact hfails _ hn₁
            · split
              · have hplaces : t.Places n₁ (.nested ⟨s.resource, rel, reference, s.existing⟩) := hp
                have hvisit := visit_follows happart hresource hplaces (joinPath_ne_root hsegment) raw
                  (fun o ho => ⟨hsaid _ (.inl rfl) o (ho ▸ List.mem_singleton.2 rfl),
                    fun hempty => absurd hempty hnonempty⟩) hbelow
                rw [← hunder] at hvisit
                exact hvisit.bind fun n₂ _ _ hn₂ _ => hrest (Nat.le_trans hn₁ hn₂)
              · split
                · have hunlink := unlinkAbsent_follows (p := ⟨s.resource, rel, reference, s.existing⟩) happart
                    hresource hp (List.forall_mem_nil _)
                  exact hunlink.bind fun n₂ _ _ hn₂ _ => hrest (Nat.le_trans hn₁ hn₂)
                · exact hfails _ hn₁
termination_by members => sizeOf members

/-- And so do the items of a relationship. -/
theorem visitItems_follows (happart : site.TellsApart) {n : Nat} {target : Resource} {path : String} {p : Parent}
    (index : Nat) (hr : site.registry.schema.resource? target.name = some target)
    (hp : p.reference.Held t.names n p.resource.name) (hpath : path ≠ "") :
    ∀ items : List Json,
      (∀ members, Json.obj members ∈ items → site.namesOf target members ⊆ t.names) →
      (∀ c ∈ clausesOfItems site.registry.schema target items, ∀ o ∈ c.raw.objects,
        site.namesOf c.target o ⊆ t.names) →
      t.Follows n (site.visitItems target path p index items)
        (site.visitItems target (pathUnder t.index path) (p.later t.slots) index items) Any
  | [], _, _ => by
    rw [WalkSite.visitItems, WalkSite.visitItems]
    exact .pure fun _ _ => trivial
  | item :: rest, hown, hbelow => by
    rw [clausesOfItems] at hbelow
    rw [WalkSite.visitItems, WalkSite.visitItems]
    have hnonempty := joinPath_ne_empty hpath (toString index)
    have hplaces : t.Places n (.nested p) := hp
    have hvisit := visit_follows happart hr hplaces
      (joinPath_ne_root fun hempty => absurd hempty hpath) item
      (fun members hitem => ⟨hown members (hitem ▸ List.mem_cons_self), fun hempty => absurd hempty hnonempty⟩)
      fun c hc => hbelow c (List.mem_append_left _ hc)
    rw [← pathUnder_joinPath t.index hnonempty] at hvisit
    refine hvisit.bind fun n₁ visited visited' hn₁ _ => ?_
    refine (visitItems_follows happart (index + 1) hr (hp.mono hn₁) hpath rest
      (fun members hmem => hown members (List.mem_cons_of_mem _ hmem))
      fun c hc => hbelow c (List.mem_append_right _ hc)).bind fun n₂ others others' hn₂ _ => ?_
    cases visited with
    | none => cases visited' <;> exact .pure fun _ _ => trivial
    | some v => cases visited' <;> exact .pure fun _ _ => trivial
termination_by items => sizeOf items

end

end Turn

/-! ## Arrays -/

namespace WalkSite

open Walking

variable {site : WalkSite} {r : Resource}

/-- What there is to report on a document that is created alone. -/
def issuesAlone (site : WalkSite) (r : Resource) (document : Json) : List Issue :=
  ((site.create r.name document).run.run {}).2.issues

/-- What there is to report on the documents of an array, each under its index. -/
def issuesOfEach (site : WalkSite) (r : Resource) (index : Nat) (items : List Json) : List Issue :=
  (items.zipIdx index).flatMap fun e => (site.issuesAlone r e.1).map (Issue.under e.2)

/-- There is something to report on an array if there is on one of its documents. -/
theorem issuesOfEach_ne_nil {site : WalkSite} {r : Resource} {index : Nat} {items : List Json} :
    site.issuesOfEach r index items ≠ [] ↔ ∃ item ∈ items, site.issuesAlone r item ≠ [] := by
  induction items generalizing index with
  | nil => simp [issuesOfEach]
  | cons item items ih =>
    have hrest := @ih (index + 1)
    unfold issuesOfEach at hrest ⊢
    rw [List.zipIdx_cons, List.flatMap_cons, List.exists_mem_cons_iff, ← hrest, ne_eq, List.append_eq_nil_iff,
      List.map_eq_nil_iff, not_and_or]

/-- A document that is no array is walked as it is. -/
theorem visit_of_create (hr : site.registry.schema.resource? r.name = some r) {document : Json}
    (hdocument : document.isArray = false) {roots : List EntityRef} {v : Walk}
    (h : (site.create r.name document).run.run {} = (.ok roots, v)) :
    ∃ visited, (site.visit r "" (.root .create) .patch document).run.run {} = (.ok visited, v) := by
  unfold create at h
  rw [bind_of_ok (liftM_ok (Schema.require_eq_ok.2 hr) _)] at h
  dsimp only at h
  split at h
  · cases hdocument
  · obtain ⟨visited, between, hvisit, hrest⟩ := bind_eq_ok h
    cases hrest
    exact ⟨visited, hvisit⟩

/-- A document in its turn reports what it reports alone, and the walk still remembers only what goes by the
names of the documents so far. -/
theorem visit_in_turn (happart : site.TellsApart) (hr : site.registry.schema.resource? r.name = some r)
    {document : Json} (hdocument : document.isArray = false) {index : Nat} {before : Walk}
    {earlier : List (String × String)} (hbefore : before.Told earlier)
    (hnames : earlier.Disjoint (site.names r document))
    (hpaths : ∀ members, document = .obj members → PathsApart r members) {roots : List EntityRef} {v : Walk}
    (halone : (site.create r.name document).run.run {} = (.ok roots, v)) :
    ∃ visited after, (site.visit r (toString index) (.root .create) .patch document).run.run before =
        (.ok visited, after) ∧
      after.issues = before.issues ++ (site.issuesAlone r document).map (Issue.under index) ∧
      after.Told (earlier ++ site.names r document) := by
  let t : Turn := ⟨index, before, earlier, site.names r document⟩
  have hplaces : t.Places 0 (.root .create) := trivial
  have hfollows := Turn.visit_follows happart hr hplaces (show "" ≠ "$" by decide) document
    (fun members hmembers => ⟨fun name hname => List.mem_append_left _ (List.mem_flatMap.2
      ⟨members, hmembers ▸ List.mem_singleton.2 rfl, hname⟩), fun _ => hpaths members hmembers⟩)
    fun c hc o ho name hname => List.mem_append_right _
      (List.mem_flatMap.2 ⟨c, hc, List.mem_flatMap.2 ⟨o, ho, hname⟩⟩)
  obtain ⟨alone, hvisit⟩ := visit_of_create hr hdocument halone
  obtain ⟨visited, after, hturn, hmirrors, -⟩ :=
    hfollows {} before (Turn.mirrors_start hbefore hnames) (Nat.zero_le _) alone v hvisit
  refine ⟨visited, after, hturn, ?_, hmirrors.told⟩
  rw [hmirrors.issues, issuesAlone, halone]

/-- The walk over an array reports what there is to report on each document alone. -/
theorem visitRoots_collects (happart : site.TellsApart) (hr : site.registry.schema.resource? r.name = some r)
    {items : List Json} (hitems : ∀ item ∈ items, item.isArray = false)
    (hnames : items.Pairwise fun a b => (site.names r a).Disjoint (site.names r b))
    (hpaths : ∀ members, Json.obj members ∈ items → PathsApart r members)
    (halone : ∀ item ∈ items, ∃ roots v, (site.create r.name item).run.run {} = (.ok roots, v))
    (index : Nat) {before : Walk} {earlier : List (String × String)} (hbefore : before.Told earlier)
    (hearlier : ∀ item ∈ items, earlier.Disjoint (site.names r item)) :
    ∃ visited after, (site.visitRoots r .create index items).run.run before = (.ok visited, after) ∧
      after.issues = before.issues ++ site.issuesOfEach r index items := by
  induction items generalizing index before earlier with
  | nil => exact ⟨[], before, rfl, (List.append_nil _).symm⟩
  | cons item items ih =>
    obtain ⟨roots, v, hcreate⟩ := halone item List.mem_cons_self
    obtain ⟨hfirst, hrest⟩ := List.pairwise_cons.1 hnames
    obtain ⟨visited, between, hvisit, hissues, htold⟩ := visit_in_turn happart hr (hitems item List.mem_cons_self)
      hbefore (hearlier item List.mem_cons_self)
      (fun members hmembers => hpaths members (hmembers ▸ List.mem_cons_self)) hcreate
    obtain ⟨others, after, hothers, hmore⟩ := @ih (fun other hother => hitems other (List.mem_cons_of_mem _ hother))
      hrest (fun members hmem => hpaths members (List.mem_cons_of_mem _ hmem))
      (fun other hother => halone other (List.mem_cons_of_mem _ hother)) (index + 1) between _ htold
      fun other hother => List.disjoint_append_left.2
        ⟨hearlier other (List.mem_cons_of_mem _ hother), hfirst other hother⟩
    refine ⟨visited.toList ++ others, after, ?_, ?_⟩
    · rw [visitRoots, visitRoot, bind_of_ok hvisit, bind_of_ok hothers]
      rfl
    · rw [hmore, hissues, issuesOfEach, issuesOfEach, List.zipIdx_cons, List.flatMap_cons, List.append_assoc]

/-- So does the creation of an entity for each document of an array. -/
theorem create_collects (happart : site.TellsApart) (hr : site.registry.schema.resource? r.name = some r)
    {items : List Json} (hitems : ∀ item ∈ items, item.isArray = false)
    (hnames : items.Pairwise fun a b => (site.names r a).Disjoint (site.names r b))
    (hpaths : ∀ members, Json.obj members ∈ items → PathsApart r members)
    (halone : ∀ item ∈ items, ∃ roots v, (site.create r.name item).run.run {} = (.ok roots, v)) :
    ∃ roots after, (site.create r.name (.arr items)).run.run {} = (.ok roots, after) ∧
      after.issues = site.issuesOfEach r 0 items := by
  have hstart : Walk.Told [] {} := ⟨nofun, nofun⟩
  obtain ⟨visited, after, hvisit, hissues⟩ := visitRoots_collects happart hr hitems hnames hpaths halone 0 hstart
    fun item _ => List.disjoint_nil_left _
  refine ⟨visited.map Visited.reference, after, ?_, hissues⟩
  unfold create
  rw [bind_of_ok (liftM_ok (Schema.require_eq_ok.2 hr) _)]
  dsimp only
  rw [bind_of_ok hvisit]
  rfl

end WalkSite

end NestedResources
