import NestedResources.Proofs.Store.Numbering
import NestedResources.Proofs.Write.Children
import NestedResources.Proofs.Write.Consent
import NestedResources.Proofs.Write.Creation
import NestedResources.Proofs.Write.Pinpoint

/-!
# Documents that take their turns

The documents of an array are walked one after the other, and each walk goes on from what those before it
have left: it counts its slots on from theirs, and its paths start with its index. What the walks before
know of other entities makes no difference to it. So the turn of a document mirrors the walk that the
document has alone (`Turn.Mirrors`), and every part of that walk is followed by the same part in its turn
(`Turn.Follows`).
-/
namespace NestedResources

open WalkSite (ToldApart firstOf?_eq_none)

/-! ## Slots that are counted on -/

namespace EntityRef

/-- The same entity in a plan with `n` slots before. -/
def later (n : Nat) : EntityRef → EntityRef
  | existing i => existing i
  | pending slot => pending (n + slot)

/-- Whether the key tells that the entity is stored, if it is. -/
def Clear : EntityRef → Prop
  | existing i => ToldApart i.key
  | pending _ => True

variable {a b : EntityRef}

/-- Clear keys agree after other slots if and only if they agree without them. -/
theorem Clear.key_later_eq_iff (ha : a.Clear) (hb : b.Clear) (n : Nat) :
    (a.later n).key = (b.later n).key ↔ a.key = b.key := by
  cases a with
  | existing i =>
    cases b with
    | existing j => exact Iff.rfl
    | pending slot => exact iff_of_false (ha _) (ha _)
  | pending slot =>
    cases b with
    | existing j => exact iff_of_false (fun h => hb _ h.symm) fun h => hb _ h.symm
    | pending other =>
      refine ⟨fun h => ?_, fun h => ?_⟩
      · rw [Nat.add_left_cancel (key_pending_injective h)]
      · rw [later, later, key_pending_injective h]

/-- Whether a reference is to a stored entity that goes by one of the names, or to one of the first `n`
that are created. -/
def Held (names : List (String × String)) (n : Nat) (resource : String) : EntityRef → Prop
  | existing i => (resource, i.key) ∈ names ∧ ToldApart i.key
  | pending slot => slot < n

variable {names : List (String × String)} {m n : Nat} {resource : String}

theorem Held.clear (h : a.Held names n resource) : a.Clear := by
  cases a with
  | existing i => exact h.2
  | pending slot => trivial

theorem Held.mono (h : a.Held names m resource) (hmn : m ≤ n) : a.Held names n resource := by
  cases a with
  | existing i => exact h
  | pending slot => exact Nat.lt_of_lt_of_le h hmn

end EntityRef

def Known.later (n : Nat) (k : Known) : Known := { k with reference := k.reference.later n }

@[simp] theorem Known.record_later (n : Nat) (k : Known) : (k.later n).record = k.record := rfl

def Parent.later (n : Nat) (p : Parent) : Parent := { p with reference := p.reference.later n }

@[simp] theorem Parent.relationship_later (n : Nat) (p : Parent) : (p.later n).relationship = p.relationship := rfl

def Position.later (n : Nat) : Position → Position
  | root r => .root r
  | nested p => .nested (p.later n)

@[simp] theorem Position.parent?_later (n : Nat) (position : Position) :
    (position.later n).parent? = position.parent? := by
  cases position <;> rfl

@[simp] theorem Position.identity?_later (n : Nat) (position : Position) :
    (position.later n).identity? = position.identity? := by
  cases position <;> rfl

theorem Parent.linkKey_later_eq_iff {p q : Parent} {a b : EntityRef} (hp : p.reference.Clear)
    (hq : q.reference.Clear) (ha : a.Clear) (hb : b.Clear) (n : Nat) :
    (p.later n).linkKey (a.later n) = (q.later n).linkKey (b.later n) ↔ p.linkKey a = q.linkKey b := by
  simp only [linkKey, later, LinkKey.mk.injEq, hp.key_later_eq_iff hq, ha.key_later_eq_iff hb]

theorem Plan.pending_push (p : Plan) (c : Command) : (p.push c).pending =
    match c with
    | .create slot _ _ => max p.pending (slot + 1)
    | _ => p.pending := by
  rw [pending, push, List.foldl_append]
  rfl

/-! ## Paths that start with an index -/

/-- The path of an issue in an array, where the document has an index: the whole document is at the index. -/
def issuePath (index : Nat) (path : String) : String :=
  if path = "$" then toString index else toString index ++ "." ++ path

/-- An issue of a document, when the document has an index in an array. -/
def Issue.under (index : Nat) (i : Issue) : Issue := { i with field := issuePath index i.field }

/-- The path of an object in an array, where its document has an index. -/
def pathUnder (index : Nat) (path : String) : String :=
  if path = "" then toString index else toString index ++ "." ++ path

section Paths

variable (index : Nat) {path : String}

theorem toString_ne_empty : toString index ≠ "" := by
  intro h
  have hlength := congrArg String.length h
  simp at hlength

theorem append_dot_ne_empty (start rest : String) : start ++ "." ++ rest ≠ "" := by
  intro h
  have hlength := congrArg String.length h
  simp at hlength

theorem pathUnder_ne_empty (path : String) : pathUnder index path ≠ "" := by
  unfold pathUnder
  split
  · exact toString_ne_empty index
  · exact append_dot_ne_empty _ path

/-- A path goes on under an index as it goes on without it. -/
theorem joinPath_pathUnder (path segment : String) :
    joinPath (pathUnder index path) segment = toString index ++ "." ++ joinPath path segment := by
  rw [joinPath, if_neg (pathUnder_ne_empty index path), joinPath, pathUnder]
  split
  · rfl
  · simp only [String.append_assoc]

theorem joinPath_ne_empty {path : String} (hpath : path ≠ "") (segment : String) : joinPath path segment ≠ "" := by
  rw [joinPath, if_neg hpath]
  exact append_dot_ne_empty path segment

/-- A path of several segments is not that of the whole document. -/
theorem joinPath_ne_root {path segment : String} (h : path = "" → segment ≠ "$") : joinPath path segment ≠ "$" := by
  rw [joinPath]
  split
  · rename_i hpath
    exact h hpath
  · rename_i hpath
    intro hroot
    have hlength := congrArg String.length hroot
    rw [String.length_append, String.length_append, show ".".length = 1 from rfl,
      show "$".length = 1 from rfl] at hlength
    exact hpath (String.length_eq_zero_iff.1 (by omega))

theorem issuePath_joinPath {segment : String} (h : path = "" → segment ≠ "$") :
    joinPath (pathUnder index path) segment = issuePath index (joinPath path segment) := by
  rw [joinPath_pathUnder, issuePath, if_neg (joinPath_ne_root h)]

theorem pathUnder_joinPath {segment : String} (h : joinPath path segment ≠ "") :
    joinPath (pathUnder index path) segment = pathUnder index (joinPath path segment) := by
  rw [joinPath_pathUnder, pathUnder, if_neg h]

theorem issuePath_pathOrRoot (h : path ≠ "$") :
    pathOrRoot (pathUnder index path) = issuePath index (pathOrRoot path) := by
  rw [pathOrRoot, if_neg (pathUnder_ne_empty index path), pathOrRoot, pathUnder]
  split
  · rfl
  · rw [issuePath, if_neg h]

end Paths

/-! ## What a turn keeps alike -/

/-- The turn of a document in an array. -/
structure Turn where
  index : Nat
  /-- The walk when the turn begins. -/
  before : Walk
  /-- What the documents before call the entities that they meet, by resource and key. -/
  earlier : List (String × String)
  /-- What the document calls them. -/
  names : List (String × String)

/-- Whether all that a walk remembers is about entities that go by names, or that it creates itself. -/
structure Walk.Told (names : List (String × String)) (w : Walk) : Prop where
  known : ∀ e ∈ w.known, e.1 ∈ names
  memberships : ∀ e ∈ w.memberships, (e.1.resource, e.1.parent) ∈ names ∧ ToldApart e.1.parent ∨
    ∃ slot < w.plan.pending, e.1.parent = (EntityRef.pending slot).key

namespace Turn

variable (t : Turn)

/-- The slots that are taken when the turn begins. -/
def slots : Nat := t.before.plan.pending

/-- Whether a walk mirrors, in its turn, the walk that the document has alone. -/
structure Mirrors (v w : Walk) : Prop where
  pending : w.plan.pending = t.slots + v.plan.pending
  issues : w.issues = t.before.issues ++ v.issues.map (Issue.under t.index)
  known : ∀ name ∈ t.names, firstOf? name w.known = (firstOf? name v.known).map (Known.later t.slots)
  held : ∀ name k, firstOf? name v.known = some k → k.reference.Held t.names v.plan.pending name.1
  memberships : ∀ (p : Parent) (child : EntityRef) (n : Nat), p.reference.Held t.names n p.resource.name →
    child.Clear → firstOf? ((p.later t.slots).linkKey (child.later t.slots)) w.memberships =
      firstOf? (p.linkKey child) v.memberships
  told : w.Told (t.earlier ++ t.names)

/-- Whether a part of the turn does what a part of the walk alone does, once there are `n` slots. The results
are related for the slots that there are afterwards. -/
def Follows {α β : Type} (n : Nat) (alone : Walking α) (turn : Walking β) (R : Nat → α → β → Prop) : Prop :=
  ∀ v w, t.Mirrors v w → n ≤ v.plan.pending → ∀ a v', alone.run.run v = (.ok a, v') →
    ∃ b w', turn.run.run w = (.ok b, w') ∧ t.Mirrors v' w' ∧ v.plan.pending ≤ v'.plan.pending ∧
      R v'.plan.pending a b

/-- Nothing is said of the results. -/
def Any {α β : Type} : Nat → α → β → Prop := fun _ _ _ => True

/-- The results are the same. -/
def Same {α : Type} : Nat → α → α → Prop := fun _ a b => a = b

variable {t : Turn}

/-- When a turn begins, the walk mirrors an empty one. -/
theorem mirrors_start (hbefore : t.before.Told t.earlier) (hapart : t.earlier.Disjoint t.names) :
    t.Mirrors {} t.before where
  pending := rfl
  issues := (List.append_nil _).symm
  known := fun name hname => firstOf?_eq_none fun e he heq => hapart (hbefore.known e he) (heq ▸ hname)
  held := fun name k hk => by cases hk
  memberships := fun p child n hp _ => firstOf?_eq_none fun e he heq => by
    have hentry := hbefore.memberships e he
    rw [heq] at hentry
    cases hreference : p.reference with
    | existing i =>
      rw [hreference] at hp
      rcases hentry with ⟨hearlier, -⟩ | ⟨slot, -, hkey⟩
      · simp only [Parent.linkKey, Parent.later, hreference] at hearlier
        exact hapart hearlier hp.1
      · simp only [Parent.linkKey, Parent.later, hreference] at hkey
        exact hp.2 slot hkey
    | pending slot =>
      rcases hentry with ⟨-, htold⟩ | ⟨other, hother, hkey⟩
      · simp only [Parent.linkKey, Parent.later, hreference] at htold
        exact htold _ rfl
      · simp only [Parent.linkKey, Parent.later, hreference] at hkey
        have hslots := EntityRef.key_pending_injective hkey
        unfold slots at hslots
        omega
  told := ⟨fun e he => List.mem_append_left _ (hbefore.known e he), fun e he =>
    (hbefore.memberships e he).imp (fun h => ⟨List.mem_append_left _ h.1, h.2⟩) id⟩

namespace Follows

open Walking

variable {α β γ δ : Type} {n : Nat} {m : Walking α} {m' : Walking β} {R R' : Nat → α → β → Prop}
  {S : Nat → γ → δ → Prop}

theorem pure {a : α} {b : β} (h : ∀ n', n ≤ n' → R n' a b) : t.Follows n (pure a) (pure b) R := by
  intro v w hmirrors hn a' v' hrun
  cases hrun
  exact ⟨b, w, rfl, hmirrors, Nat.le_refl _, h _ hn⟩

theorem throw {e : Error} : t.Follows n (throw e : Walking α) m' R := fun _ _ _ _ _ _ hrun => by cases hrun

theorem throw_bind {e : Error} {f : γ → Walking α} : t.Follows n (MonadExcept.throw e >>= f) m' R :=
  fun _ _ _ _ _ _ hrun => by cases hrun

theorem bind {f : α → Walking γ} {g : β → Walking δ} (h : t.Follows n m m' R)
    (hrest : ∀ n' a b, n ≤ n' → R n' a b → t.Follows n' (f a) (g b) S) :
    t.Follows n (m >>= f) (m' >>= g) S := by
  intro v w hmirrors hn c v' hrun
  obtain ⟨a, between, hfirst, hsecond⟩ := bind_eq_ok hrun
  obtain ⟨b, w', hfollows, hbetween, hgrows, hR⟩ := h v w hmirrors hn a between hfirst
  obtain ⟨d, w'', hfollows', hafter, hgrows', hS⟩ :=
    hrest _ a b (Nat.le_trans hn hgrows) hR between w' hbetween (Nat.le_refl _) c v' hsecond
  exact ⟨d, w'', by rw [bind_of_ok hfollows, hfollows'], hafter, Nat.le_trans hgrows hgrows', hS⟩

/-- What depends on nothing that was walked before comes out the same. -/
theorem lift (x : Except Error α) :
    t.Follows n (liftM x : Walking α) (liftM x) fun _ a b => a = b ∧ x = .ok a := by
  intro v w hmirrors _ a v' hrun
  obtain ⟨rfl, rfl⟩ := liftM_eq_ok hrun
  exact ⟨a, w, rfl, hmirrors, Nat.le_refl _, rfl, rfl⟩

theorem get {f : Walk → Walking α} {g : Walk → Walking β}
    (h : ∀ v w, t.Mirrors v w → n ≤ v.plan.pending → t.Follows v.plan.pending (f v) (g w) R) :
    t.Follows n (get >>= f) (get >>= g) R :=
  fun v w hmirrors hn a v' hrun => h v w hmirrors hn v w hmirrors (Nat.le_refl _) a v' hrun

theorem modify {f g : Walk → Walk} (h : ∀ v w, t.Mirrors v w → n ≤ v.plan.pending →
    t.Mirrors (f v) (g w) ∧ v.plan.pending ≤ (f v).plan.pending) :
    t.Follows n (modify f : Walking Unit) (modify g : Walking Unit) Any := by
  intro v w hmirrors hn a v' hrun
  cases hrun
  obtain ⟨hafter, hgrows⟩ := h v w hmirrors hn
  exact ⟨(), g w, rfl, hafter, hgrows, trivial⟩

/-- A loop over related items follows if each of its rounds does. -/
theorem forM {f : α → Walking Unit} {g : α → Walking Unit} {items : List α}
    (h : ∀ a ∈ items, ∀ n', n ≤ n' → t.Follows n' (f a) (g a) Any) :
    t.Follows n (items.forM f) (items.forM g) Any := by
  induction items generalizing n with
  | nil => exact .pure fun _ _ => trivial
  | cons a items ih =>
    refine (h a List.mem_cons_self n (Nat.le_refl n)).bind fun n' _ _ hn _ => ?_
    exact ih fun b hb n'' hn' => h b (List.mem_cons_of_mem a hb) n'' (Nat.le_trans hn hn')

end Follows

/-! ## Single steps -/

section Steps

open Walking

variable {n : Nat} {site : WalkSite}

theorem addIssues_follows {found found' : List Issue} (h : found' = found.map (Issue.under t.index)) :
    t.Follows n (addIssues found) (addIssues found') Any :=
  .modify fun _ _ hm _ => ⟨{ hm with
    issues := by rw [hm.issues, h, List.map_append, List.append_assoc]
    told := { hm.told with } }, Nat.le_refl _⟩

theorem issue_follows {path path' : String} (h : path' = issuePath t.index path) (d : Defect) :
    t.Follows n (issue path d) (issue path' d) Any :=
  addIssues_follows (by rw [h]; rfl)

/-- Gates answer the same, whatever was asked before. -/
theorem permit_follows (gate : GateRef × Gate) (change : Change) :
    t.Follows n (site.permit gate change) (site.permit gate change) Any := by
  unfold WalkSite.permit
  refine .bind (.modify fun v w hm _ => ⟨{ hm with told := { hm.told with } }, Nat.le_refl _⟩) fun n' _ _ _ _ => ?_
  split
  · exact .throw
  · exact .pure fun _ _ => trivial

theorem command_follows {c c' : Command} (hc : ∀ slot resource values, c ≠ .create slot resource values)
    (hc' : ∀ slot resource values, c' ≠ .create slot resource values) :
    t.Follows n (command c) (command c') Any :=
  .modify fun v w hm _ => by
    have hpush : ∀ {c : Command} (p : Plan), (∀ slot resource values, c ≠ .create slot resource values) →
        (p.push c).pending = p.pending := fun {c} p hc => by
      rw [Plan.pending_push]
      cases c with
      | create slot resource values => exact absurd rfl (hc slot resource values)
      | _ => rfl
    have hv := hpush v.plan hc
    have hw := hpush w.plan hc'
    exact ⟨{ hm with
      pending := by rw [hv, hw, hm.pending]
      held := fun name k hk => by rw [hv]; exact hm.held name k hk
      told := { hm.told with memberships := by rw [hw]; exact hm.told.memberships } }, Nat.le_of_eq hv.symm⟩

theorem learn_follows {resource key : String} {k : Known} (hname : (resource, key) ∈ t.names)
    (hk : k.reference.Held t.names n resource) :
    t.Follows n (learn resource key k) (learn resource key (k.later t.slots)) Any :=
  .modify fun v w hm hn => by
    refine ⟨{ hm with known := fun name hother => ?_, held := fun name k' hk' => ?_, told := ?_ }, Nat.le_refl _⟩
    · by_cases heq : (resource, key) = name
      · subst heq
        simp
      · rw [firstOf?_cons_of_ne heq, firstOf?_cons_of_ne heq, hm.known name hother]
    · by_cases heq : (resource, key) = name
      · subst heq
        rw [firstOf?_cons_self] at hk'
        exact Option.some.inj hk' ▸ hk.mono hn
      · rw [firstOf?_cons_of_ne heq] at hk'
        exact hm.held name k' hk'
    · exact { hm.told with known := List.forall_mem_cons.2 ⟨List.mem_append_right _ hname, hm.told.known⟩ }

theorem setMember_follows {p : Parent} {child : EntityRef} {value : Bool}
    (hp : p.reference.Held t.names n p.resource.name) (hchild : child.Clear) :
    t.Follows n (setMember (p.linkKey child) value)
      (setMember ((p.later t.slots).linkKey (child.later t.slots)) value) Any :=
  .modify fun v w hm hn => by
    refine ⟨{ hm with memberships := fun q other m hq hother => ?_, told := ?_ }, Nat.le_refl _⟩
    · have hiff := Parent.linkKey_later_eq_iff hp.clear hq.clear hchild hother t.slots
      by_cases heq : p.linkKey child = q.linkKey other
      · rw [← hiff.2 heq, ← heq, firstOf?_cons_self, firstOf?_cons_self]
      · rw [firstOf?_cons_of_ne heq, firstOf?_cons_of_ne fun h => heq (hiff.1 h), hm.memberships q other m hq hother]
    · refine { hm.told with memberships := List.forall_mem_cons.2 ⟨?_, hm.told.memberships⟩ }
      simp only [Parent.linkKey, Parent.later]
      cases hreference : p.reference with
      | existing i =>
        rw [hreference] at hp
        exact .inl ⟨List.mem_append_right _ hp.1, hp.2⟩
      | pending slot =>
        rw [hreference] at hp
        refine .inr ⟨t.slots + slot, ?_, rfl⟩
        have hslot : slot < n := hp
        rw [hm.pending]
        omega

end Steps

end Turn

/-! ## Looking up -/

theorem Operator.exists_value?_of_holds {type : FieldType} {record : Record} {column : String} {v : Json}
    (hv : v ≠ .null) (h : Operator.eq.holds type (record.get? column) v = true) :
    ∃ x, record.value? column = some x := by
  cases hx : record.get? column with
  | none =>
    rw [hx] at h
    cases v with
    | null => exact absurd rfl hv
    | _ => simp [Operator.holds, Json.isNull] at h
  | some x =>
    refine ⟨x, Record.value?_of_get? hx ?_⟩
    rintro rfl
    rw [hx] at h
    exact ne_null_of_holds hv h rfl

/-- A row that an object is for has an identity. -/
theorem Resource.exists_identityOf?_of_holds {r : Resource} {members : List (String × Json)} {i : Identity}
    (hi : r.identityIn? members = some i) {tables : Tables} {s : Schema} {record : Record}
    (h : (Predicate.identity r i).holds tables s r record = true) : ∃ j, r.identityOf? record = some j := by
  rw [Predicate.identity, Predicate.holds, Predicate.holdsAll_eq_all, List.all_map, List.all_eq_true] at h
  obtain ⟨hlength, hpairs⟩ := List.forall₂_iff_zip.1 (identityIn?_eq_some hi)
  refine exists_identityOf? fun f hf => ?_
  obtain ⟨k, hk, rfl⟩ := List.mem_iff_getElem.1 hf
  have hpair : (r.identityFields[k], i.values[k]) ∈ r.identityFields.zip i.values :=
    List.mem_iff_getElem.2 ⟨k, by simp; omega, List.getElem_zip⟩
  obtain ⟨raw, -, hraw, hcoerce⟩ := hpairs hpair
  exact Option.isSome_iff_exists.2
    (Operator.exists_value?_of_holds (FieldType.ne_null_of_coerce hraw hcoerce) (h _ hpair))

/-- The keys by which an identity finds its entity: its own, and those of the rows that it finds. -/
def WalkSite.keysOf (site : WalkSite) (r : Resource) (i : Identity) : List String :=
  i.key :: (site.tables.matching site.registry.schema r (some (.identity r i))).map Identity.key

/-- Whether no stored entity goes by the key of one that is still to be created. -/
def WalkSite.TellsApart (site : WalkSite) : Prop :=
  ∀ r, site.registry.schema.resource? r.name = some r → ∀ record ∈ site.tables.rowsOf r.name,
    ∀ i, r.identityOf? record = some i → ToldApart i.key

namespace Turn

open Walking

variable {t : Turn} {n : Nat} {site : WalkSite} {r target : Resource} {p : Parent}

/-- What a document finds for an identity that it names is what it finds alone. -/
theorem lookup_follows (happart : site.TellsApart) (hr : site.registry.schema.resource? r.name = some r)
    {members : List (String × Json)} {i : Identity} (hi : r.identityIn? members = some i)
    (hnames : ∀ key ∈ site.keysOf r i, (r.name, key) ∈ t.names) :
    t.Follows n (site.lookup r i) (site.lookup r i) fun n' a b =>
      b = a.map (Known.later t.slots) ∧ ∀ k ∈ a, k.reference.Held t.names n' r.name := by
  have hname := hnames i.key List.mem_cons_self
  unfold WalkSite.lookup
  refine .get fun v w hm hn => ?_
  rw [hm.known _ hname]
  cases hmet : firstOf? (r.name, i.key) v.known with
  | some k =>
    refine .pure fun n' hn' => ⟨rfl, fun k' hk' => ?_⟩
    exact Option.some.inj hk' ▸ (hm.held _ k hmet).mono hn'
  | none =>
    simp only [Option.map_none]
    refine .bind (.lift _) fun n₁ required _ hn₁ => ?_
    rintro ⟨rfl, -⟩
    refine .bind (.lift _) fun n₂ rows _ hn₂ => ?_
    rintro ⟨rfl, hrows⟩
    obtain ⟨_, hfirst, hvisible, -⟩ := site.tables.fetch_first hr
      (Predicate.conjoin (some (.identity r i)) required)
    cases hfirst.symm.trans hrows
    split
    · rename_i row rest
      obtain ⟨hmem, hpasses⟩ := hvisible row List.mem_cons_self
      rw [Predicate.passes_conjoin, Bool.and_eq_true] at hpasses
      obtain ⟨j, hj⟩ := Resource.exists_identityOf?_of_holds hi hpasses.1
      have hheld : (EntityRef.existing ((r.identityOf? row.record).getD i)).Held t.names n₂ r.name := by
        rw [hj, Option.getD_some]
        refine ⟨hnames _ (List.mem_cons_of_mem _ (List.mem_map_of_mem ?_)), happart r hr _ hmem j hj⟩
        exact site.tables.mem_matching.2 ⟨row.record, hmem, hpasses.1, hj⟩
      refine .bind (learn_follows hname hheld) fun n₃ _ _ hn₃ _ => .pure fun n' hn' => ⟨rfl, fun k hk => ?_⟩
      exact Option.some.inj hk ▸ hheld.mono (Nat.le_trans hn₃ hn')
    · split
      · refine .bind (.lift _) fun n₃ hidden _ _ => ?_
        rintro ⟨rfl, -⟩
        split
        · exact .throw_bind
        · exact .pure fun _ _ => ⟨rfl, fun k hk => by cases hk⟩
      · exact .pure fun _ _ => ⟨rfl, fun k hk => by cases hk⟩

/-! ## Members -/

/-- Whether a child is a member comes out the same. -/
theorem isMember_follows {child : EntityRef} (hp : p.reference.Held t.names n p.resource.name)
    (hchild : child.Clear) :
    t.Follows n (site.isMember p target child) (site.isMember (p.later t.slots) target (child.later t.slots))
      Same := by
  unfold WalkSite.isMember
  refine .get fun v w hm _ => ?_
  rw [hm.memberships p child n hp hchild]
  cases firstOf? (p.linkKey child) v.memberships with
  | some value => exact .pure fun _ _ => rfl
  | none =>
    obtain ⟨resource, relationship, reference, existing⟩ := p
    cases reference with
    | pending slot => exact .pure fun _ _ => rfl
    | existing parent =>
      cases child with
      | pending slot => exact .pure fun _ _ => rfl
      | existing i =>
        refine .bind (.lift _) fun n' found _ _ => ?_
        rintro ⟨rfl, -⟩
        exact .pure fun _ _ => rfl

/-- The current members come out the same. They are stored. -/
theorem currentMembers_follows (happart : site.TellsApart)
    (htarget : site.registry.schema.resource? target.name = some target)
    (hp : p.reference.Held t.names n p.resource.name) :
    t.Follows n (site.currentMembers p target) (site.currentMembers (p.later t.slots) target) fun _ a b =>
      a = b ∧ ∀ k ∈ a, ∃ i, k.reference = .existing i ∧ ToldApart i.key := by
  unfold WalkSite.currentMembers
  obtain ⟨resource, relationship, reference, existing⟩ := p
  cases reference with
  | pending slot => exact .pure fun _ _ => ⟨rfl, fun k hk => by cases hk⟩
  | existing parent =>
    refine .bind (.lift _) fun n₁ required _ hn₁ => ?_
    rintro ⟨rfl, -⟩
    refine .bind (.lift _) fun n₂ rows _ hn₂ => ?_
    rintro ⟨rfl, hrows⟩
    refine .get fun v w hm _ => .pure fun _ _ => ?_
    obtain ⟨_, hall, hrow⟩ := site.tables.fetch_all htarget
      (Predicate.conjoin (some (.memberOf resource.name parent relationship.name)) required)
    cases hall.symm.trans hrows
    have hmember : ∀ row ∈ rows, ∀ i, target.identityOf? row.record = some i → ToldApart i.key := by
      intro row hmem i hi
      obtain ⟨record, hrecord, -, rfl⟩ := (hrow row).1 hmem
      exact happart target htarget record hrecord i hi
    refine ⟨List.filterMap_congr fun row hrow => ?_, fun k hk => ?_⟩
    · cases hi : target.identityOf? row.record with
      | none => rfl
      | some i =>
        have hsame := hm.memberships _ (.existing i) n hp (hmember row hrow i hi)
        simp only [EntityRef.later] at hsame
        simp only [Option.bind_eq_bind, Option.bind_some, hsame]
    · obtain ⟨row, hrow, hk⟩ := List.mem_filterMap.1 hk
      obtain ⟨i, hi, hk⟩ := Option.bind_eq_some_iff.1 hk
      obtain ⟨-, hk⟩ := Option.ite_none_left_eq_some.1 hk
      cases hk
      exact ⟨i, rfl, hmember row hrow i hi⟩

/-- Both ends are asked the same. -/
theorem permitRelationship_follows {child : Option Record} {action : Action} {value : Option Json} :
    t.Follows n (site.permitRelationship p target child action value)
      (site.permitRelationship (p.later t.slots) target child action value) Any := by
  unfold WalkSite.permitRelationship
  refine (permit_follows _ _).bind fun n' _ _ _ _ => ?_
  simp only [Parent.later]
  split
  · exact .pure fun _ _ => trivial
  · exact permit_follows _ _

theorem planUnlink_follows {child : Known} {value : Option Json}
    (hp : p.reference.Held t.names n p.resource.name) (hchild : child.reference.Clear) :
    t.Follows n (site.planUnlink p target child value)
      (site.planUnlink (p.later t.slots) target (child.later t.slots) value) Any := by
  unfold WalkSite.planUnlink
  refine permitRelationship_follows.bind fun n₁ _ _ hn₁ _ => ?_
  refine (command_follows (by simp) (by simp)).bind fun n₂ _ _ hn₂ _ => ?_
  exact setMember_follows (hp.mono (Nat.le_trans hn₁ hn₂)) hchild

/-- A stored member stays or goes for the same kept entities. -/
theorem displace_follows {keep : List EntityRef} {member : Known} {i : Identity}
    (hp : p.reference.Held t.names n p.resource.name) (hkeep : ∀ ref ∈ keep, ref.Clear)
    (hmember : member.reference = .existing i) (hi : ToldApart i.key) :
    t.Follows n (site.displace p target (keep.map EntityRef.key) member)
      (site.displace (p.later t.slots) target ((keep.map (EntityRef.later t.slots)).map EntityRef.key) member)
      Any := by
  have hclear : member.reference.Clear := hmember ▸ hi
  have hlater : member.later t.slots = member := by
    obtain ⟨reference, record, created⟩ := member
    cases hmember
    rfl
  have hiff : member.reference.key ∈ (keep.map (EntityRef.later t.slots)).map EntityRef.key ↔
      member.reference.key ∈ keep.map EntityRef.key := by
    rw [List.map_map, List.mem_map, List.mem_map]
    refine exists_congr fun ref => and_congr_right fun href => ?_
    have hkey := (hkeep ref href).key_later_eq_iff hclear t.slots
    rwa [show member.reference.later t.slots = member.reference from congrArg Known.reference hlater] at hkey
  have hempty : ((keep.map (EntityRef.later t.slots)).map EntityRef.key).isEmpty =
      (keep.map EntityRef.key).isEmpty := by
    cases keep <;> rfl
  unfold WalkSite.displace
  by_cases hin : member.reference.key ∈ keep.map EntityRef.key
  · rw [if_pos hin, if_pos (hiff.2 hin)]
    exact .pure fun _ _ => trivial
  · rw [if_neg hin, if_neg fun h => hin (hiff.1 h), hempty, Parent.relationship_later]
    split
    · refine permitRelationship_follows.bind fun n' _ _ hn' _ => ?_
      have hset : t.Follows n' (setMember (p.linkKey member.reference) false) _ Any :=
        setMember_follows (hp.mono hn') hclear
      rwa [show member.reference.later t.slots = member.reference from congrArg Known.reference hlater] at hset
    · have hunlink : t.Follows n (site.planUnlink p target member none) _ Any := planUnlink_follows hp hclear
      rwa [hlater] at hunlink

theorem unlinkAbsent_follows (happart : site.TellsApart)
    (htarget : site.registry.schema.resource? target.name = some target)
    (hp : p.reference.Held t.names n p.resource.name) {keep : List EntityRef} (hkeep : ∀ ref ∈ keep, ref.Clear) :
    t.Follows n (site.unlinkAbsent p target (keep.map EntityRef.key))
      (site.unlinkAbsent (p.later t.slots) target ((keep.map (EntityRef.later t.slots)).map EntityRef.key)) Any := by
  unfold WalkSite.unlinkAbsent
  refine (currentMembers_follows happart htarget hp).bind fun n₁ members _ hn₁ => ?_
  rintro ⟨rfl, hmembers⟩
  refine .forM fun member hmember n₂ hn₂ => ?_
  obtain ⟨i, hreference, hi⟩ := hmembers member hmember
  exact displace_follows (hp.mono (Nat.le_trans hn₁ hn₂)) hkeep hreference hi

/-- A child is linked, or found to be a member, as it is alone. -/
theorem link_follows (happart : site.TellsApart)
    (htarget : site.registry.schema.resource? target.name = some target) {child : Known} {explicit : Bool}
    {path : String} {value : Json} (hp : p.reference.Held t.names n p.resource.name)
    (hchild : child.reference.Clear) (hpath : path ≠ "$") :
    t.Follows n (site.link p target child explicit path value)
      (site.link (p.later t.slots) target (child.later t.slots) explicit (pathUnder t.index path) value) Any := by
  unfold WalkSite.link
  refine (isMember_follows hp hchild).bind fun n₁ member _ hn₁ => ?_
  rintro rfl
  cases member with
  | true =>
    cases explicit with
    | true => exact issue_follows (issuePath_pathOrRoot t.index hpath) _
    | false => exact .pure fun _ _ => trivial
  | false =>
    have hlink : ∀ n₂, n₁ ≤ n₂ → t.Follows n₂ (do
          site.permitRelationship p target child.existing? .add (some value)
          command (.link (WalkSite.linkChange p child.reference))
          setMember (p.linkKey child.reference) true) (do
        site.permitRelationship (p.later t.slots) target child.existing? .add (some value)
        command (.link (WalkSite.linkChange (p.later t.slots) (child.later t.slots).reference))
        setMember ((p.later t.slots).linkKey (child.later t.slots).reference) true) Any := by
      intro n₂ hn₂
      refine permitRelationship_follows.bind fun n₃ _ _ hn₃ _ => ?_
      refine (command_follows (by simp) (by simp)).bind fun n₄ _ _ hn₄ _ => ?_
      exact setMember_follows (hp.mono (by omega)) hchild
    rw [if_neg Bool.false_ne_true, if_neg Bool.false_ne_true, Parent.relationship_later]
    dsimp only
    split
    · have hkept : ∀ ref ∈ [child.reference], ref.Clear := fun ref href => List.mem_singleton.1 href ▸ hchild
      exact (unlinkAbsent_follows happart htarget (hp.mono hn₁) hkept).bind fun n₂ _ _ hn₂ _ => hlink n₂ hn₂
    · exact hlink n₁ (Nat.le_refl _)

/-- A child is unlinked, or found to be no member, as it is alone. -/
theorem unlink_follows {child : Known} {path : String} {value : Json}
    (hp : p.reference.Held t.names n p.resource.name) (hchild : child.reference.Clear) (hpath : path ≠ "$") :
    t.Follows n (site.unlink p target child path value)
      (site.unlink (p.later t.slots) target (child.later t.slots) (pathUnder t.index path) value) Any := by
  unfold WalkSite.unlink
  refine (isMember_follows hp hchild).bind fun n₁ member _ hn₁ => ?_
  rintro rfl
  cases member with
  | true => exact planUnlink_follows (hp.mono hn₁) hchild
  | false => exact issue_follows (issuePath_pathOrRoot t.index hpath) _

end Turn

end NestedResources
