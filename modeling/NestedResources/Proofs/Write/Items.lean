import NestedResources.Proofs.Store.Membership
import NestedResources.Proofs.Write.Open
import NestedResources.Proofs.Write.Scalars

/-!
# Items that only name entities

The items of a relationship to several entities say of entities which of them are members. A walk over
them plans one change for every item that changes something, and it finds an issue iff an item detaches
what is no member, explicitly adds what is one, or spells an identity that breaks a rule
(`WalkSite.visitItems_run`).
-/
namespace NestedResources

/-! ## Items -/

/-- What an item says of an entity. -/
structure Mention where
  identity : Identity
  op : Option DocumentOp
  /-- The rules of the identity fields accept the values as the item spells them. -/
  valid : Bool

namespace Mention

/-- Whether the entity is a member from the item on. -/
def stays (m : Mention) : Bool := m.op ≠ some .remove

/-- A set of keys after an item. -/
def after (member : String → Bool) (m : Mention) : String → Bool :=
  Function.update member m.identity.key m.stays

/-- An item that detaches what is no member, or that explicitly adds what is one. -/
def isFault (member : String → Bool) (m : Mention) : Bool :=
  match m.op with
  | some .remove => !member m.identity.key
  | some .add => member m.identity.key
  | _ => false

/-- Whether some item, read from left to right, is a fault. -/
def meetsFault : (String → Bool) → List Mention → Bool
  | _, [] => false
  | member, m :: ms => m.isFault member || meetsFault (m.after member) ms

/-- An item that stays and breaks a rule. -/
def isRefused (m : Mention) : Bool := m.stays && !m.valid

/-- What an item changes. -/
def change (member : String → Bool) (m : Mention) : List (Identity × Bool) :=
  if member m.identity.key = m.stays then [] else [(m.identity, m.stays)]

/-- What items change, read from left to right. -/
def changes : (String → Bool) → List Mention → List (Identity × Bool)
  | _, [] => []
  | member, m :: ms => m.change member ++ changes (m.after member) ms

theorem isFault_of_stays {m : Mention} (h : m.stays = true) (member : String → Bool) :
    m.isFault member = (decide (m.op = some .add) && member m.identity.key) := by
  have hop : m.op ≠ some .remove := of_decide_eq_true h
  unfold isFault
  split
  · exact absurd ‹_› hop
  · simp [*]
  · rename_i hadd
    rw [decide_eq_false hadd, Bool.false_and]

theorem isFault_of_removes {m : Mention} (h : m.stays = false) (member : String → Bool) :
    m.isFault member = !member m.identity.key := by
  have hop : m.op = some .remove := not_not.1 (of_decide_eq_false h)
  rw [isFault, hop]

/-- An item changes the set by what it changes. -/
theorem foldl_change (member : String → Bool) (m : Mention) :
    (m.change member).foldl Progress.setMember member = m.after member := by
  unfold change after
  split
  · rename_i hsame
    rw [← hsame, Function.update_eq_self]
    rfl
  · rfl

theorem after_of_eq {m : Mention} {member : String → Bool} (h : member m.identity.key = m.stays) :
    m.after member = member := by
  rw [after, ← h, Function.update_eq_self]

/-- Items that change nothing may be left out. -/
theorem foldl_changes (member : String → Bool) (mentions : List Mention) :
    (changes member mentions).foldl Progress.setMember member = mentions.foldl after member := by
  induction mentions generalizing member with
  | nil => rfl
  | cons m ms ih =>
    rw [changes, List.foldl_append, foldl_change, ih, List.foldl_cons]

/-- Changes are about entities that are mentioned. -/
theorem exists_of_mem_changes {member : String → Bool} {mentions : List Mention} {c : Identity × Bool}
    (h : c ∈ changes member mentions) : ∃ m ∈ mentions, c.1 = m.identity := by
  induction mentions generalizing member with
  | nil => cases h
  | cons m ms ih =>
    rcases List.mem_append.1 h with hfirst | hrest
    · refine ⟨m, List.mem_cons_self, ?_⟩
      unfold change at hfirst
      split at hfirst
      · cases hfirst
      · rw [List.mem_singleton.1 hfirst]
    · obtain ⟨m', hm', hc⟩ := ih hrest
      exact ⟨m', List.mem_cons_of_mem m hm', hc⟩

/-- The last item about an entity decides. -/
theorem foldl_after (member : String → Bool) (mentions : List Mention) (key : String) :
    mentions.foldl after member key =
      (((mentions.filter (·.identity.key = key)).getLast?.map stays).getD (member key)) := by
  induction mentions generalizing member with
  | nil => rfl
  | cons m ms ih =>
    rw [List.foldl_cons, ih, List.filter_cons, after, Function.update_apply]
    by_cases hkey : m.identity.key = key
    · rw [if_pos hkey.symm, if_pos (by simpa using hkey), List.getLast?_cons]
      cases (ms.filter (·.identity.key = key)).getLast? <;> rfl
    · rw [if_neg (Ne.symm hkey), if_neg (by simpa using hkey)]

/-- Entities that are detached leave the set. -/
theorem foldl_detach (member : String → Bool) (gone : List Identity) (key : String) :
    (gone.map (·, false)).foldl Progress.setMember member key =
      if key ∈ gone.map Identity.key then false else member key := by
  induction gone generalizing member with
  | nil => rfl
  | cons j gone ih =>
    rw [List.map_cons, List.foldl_cons, ih, Progress.setMember, Function.update_apply, List.map_cons]
    by_cases hkey : key = j.key <;> simp [hkey]

/-- Once the members that are not mentioned are detached, those are left whose last item does not detach
them. -/
theorem foldl_detach_absent {member : String → Bool} {mentions : List Mention} {gone : List Identity}
    (h : ∀ key, key ∈ gone.map Identity.key ↔ member key = true ∧ mentions.foldl after member key = true ∧
      ∀ m ∈ mentions, m.stays = true → m.identity.key ≠ key) (key : String) :
    (gone.map (·, false)).foldl Progress.setMember (mentions.foldl after member) key =
      (mentions.filter (·.identity.key = key)).getLast?.any stays := by
  have hfold := foldl_after member mentions key
  rw [foldl_detach]
  cases hlast : (mentions.filter (·.identity.key = key)).getLast? with
  | none =>
    rw [hlast] at hfold
    have habsent : ∀ m ∈ mentions, m.identity.key ≠ key := fun m hm hkey =>
      List.ne_nil_of_mem (List.mem_filter.2 ⟨hm, decide_eq_true hkey⟩) (List.getLast?_eq_none_iff.1 hlast)
    split
    · rfl
    · rename_i hstays
      rw [h key, hfold] at hstays
      rw [hfold]
      cases hmember : member key with
      | false => rfl
      | true => exact absurd ⟨hmember, hmember, fun m hm _ => habsent m hm⟩ hstays
  | some m =>
    obtain ⟨hm, hkey⟩ := List.mem_filter.1 (List.mem_of_getLast? hlast)
    rw [hlast] at hfold
    split
    · rename_i hgone
      obtain ⟨-, hstays, habsent⟩ := (h key).1 hgone
      exact absurd (of_decide_eq_true hkey) (habsent m hm (hfold.symm.trans hstays))
    · exact hfold

end Mention

/-- Whether the rules of fields accept the values of a document. -/
def Resource.accepts (r : Resource) (members : List (String × Json)) : Bool :=
  members.all fun (key, raw) =>
    decide (r.Skips key) || (r.field? key).all fun f => (f.check key raw).isOk

/-- The members of an item that names an entity by its identity, and may say what it is there for. -/
structure Resource.Spells (r : Resource) (t : Tables) (members : List (String × Json)) (m : Mention) :
    Prop where
  nodup : (members.map (·.1)).Nodup
  only : ∀ e ∈ members, e.1 = DocumentOp.key ∨ e.1 ∈ r.identity
  op : DocumentOp.ofMembers? members = .ok m.op
  identity : r.identityIn? members = some m.identity
  stored : ∃ record, t.Stores r m.identity record
  valid : m.valid = r.accepts members

/-- The items of a relationship with what they say. -/
def Resource.SpellsAll (r : Resource) (t : Tables) (items : List Json) (mentions : List Mention) : Prop :=
  List.Forall₂ (fun item m => ∃ members, item = .obj members ∧ r.Spells t members m) items mentions

theorem Resource.SpellsAll.stored {r : Resource} {t : Tables} {items : List Json} {mentions : List Mention}
    (h : r.SpellsAll t items mentions) : ∀ m ∈ mentions, ∃ record, t.Stores r m.identity record := by
  induction h with
  | nil => exact fun m hm => by cases hm
  | cons hfirst _ ih =>
    obtain ⟨members, -, hspells⟩ := hfirst
    exact List.forall_mem_cons.2 ⟨hspells.stored, ih⟩

/-- What items change is about rows. -/
theorem Resource.SpellsAll.isSome_row? {r : Resource} {t : Tables} {items : List Json}
    {mentions : List Mention} (h : r.SpellsAll t items mentions) {member : String → Bool} :
    ∀ c ∈ Mention.changes member mentions, (t.row? r.name c.1).isSome = true := by
  intro c hc
  obtain ⟨m, hm, hidentity⟩ := Mention.exists_of_mem_changes hc
  obtain ⟨row, hrow⟩ := h.stored m hm
  exact hidentity ▸ Option.isSome_of_eq_some hrow.row

/-! ## Identity fields -/

theorem Field.isUnchanged_self (f : Field) (v : Json) : f.isUnchanged (some v) v = true := by
  cases v with
  | null => rfl
  | _ => exact Bool.or_eq_true_iff.2 (.inl (Json.same_refl _))

theorem Entries.get?_of_mem {α : Type} {entries : List (String × α)} (h : (entries.map (·.1)).Nodup)
    {key : String} {a : α} (hmem : (key, a) ∈ entries) : get? key entries = some a := by
  induction entries with
  | nil => cases hmem
  | cons e rest ih =>
    obtain ⟨hnew, hrest⟩ := List.nodup_cons.1 h
    obtain ⟨k, b⟩ := e
    rcases List.mem_cons.1 hmem with heq | hmem
    · cases heq
      simp [get?]
    · rw [get?, if_neg, ih hrest hmem]
      rintro rfl
      exact hnew (List.mem_map.2 ⟨_, hmem, rfl⟩)

/-- The values that a document gives for the identity of a row are those of the row. -/
theorem Resource.coerce_of_identityIn? {r : Resource} {members : List (String × Json)} {i : Identity}
    {record : Record} (hnodup : (members.map (·.1)).Nodup) (hin : r.identityIn? members = some i)
    (hof : r.identityOf? record = some i) {f : Field} (hf : f ∈ r.identityFields) {raw : Json}
    (hraw : (f.name, raw) ∈ members) :
    ∃ v, raw ≠ .null ∧ f.type.coerce raw = .ok v ∧ record.get? f.column = some v := by
  have hboth : ∀ (fields : List Field) (values : List Json),
      List.Forall₂ (fun f v => ∃ raw, Entries.get? f.name members = some raw ∧ raw ≠ .null ∧
        f.type.coerce raw = .ok v) fields values →
      List.Forall₂ (fun (f : Field) v => record.value? f.column = some v) fields values →
      ∀ f ∈ fields, ∃ v, (∃ raw, Entries.get? f.name members = some raw ∧ raw ≠ .null ∧
        f.type.coerce raw = .ok v) ∧ record.value? f.column = some v := by
    intro fields values hcoerced hstored
    induction hcoerced with
    | nil => exact fun f hf => by cases hf
    | cons hfirst _ ih =>
      cases hstored with
      | cons hvalue hrest =>
        intro f hf
        rcases List.mem_cons.1 hf with rfl | hf
        · exact ⟨_, hfirst, hvalue⟩
        · exact ih hrest f hf
  obtain ⟨v, ⟨raw', hget, hne, hcoerce⟩, hvalue⟩ := hboth _ _ (identityIn?_eq_some hin)
    (identityOf?_eq_some.1 hof) f hf
  cases hget.symm.trans (Entries.get?_of_mem hnodup hraw)
  exact ⟨v, hne, hcoerce, Record.get?_of_value? hvalue⟩

namespace WalkSite

open Walking

variable {site : WalkSite} {w : Walk} {s : Scope} {k : Known} {f : Field}

/-- An identity field of an entity that exists is never written. It is no issue if it has the value of the
row, and the rules accept how it is spelled. -/
theorem readField_identity (site : WalkSite) (hknown : s.known = some k)
    (hidentity : s.resource.isIdentity f.name = true)
    {key : String} (hf : s.resource.field? key = some f) (values : Record) (raw : Json) (w : Walk) :
    ∃ after found, (site.readField s values key raw).run.run w = (.ok values, after) ∧
      Moves w after [] [] found ∧ ∀ v, raw ≠ .null → f.type.coerce raw = .ok v →
        k.record.get? f.column = some v → (found = [] ↔ (f.check key raw).isOk = true) := by
  unfold readField
  rw [hf]
  dsimp only
  cases hcheck : f.check (joinPath s.path key) raw with
  | error found =>
    refine ⟨_, found, rfl, ⟨(List.append_nil _).symm, rfl, rfl, rfl⟩, fun v _ _ _ => ?_⟩
    refine iff_of_false (Field.ne_nil_of_check hcheck) fun hok => ?_
    obtain ⟨value, hvalue⟩ := Except.exists_of_isOk hok
    cases hcheck.symm.trans (Field.check_of_path hvalue _)
  | ok value =>
    have hok : (f.check key raw).isOk = true := by
      rw [Field.check_of_path hcheck key]
      rfl
    dsimp only
    rw [hknown, Option.any_some]
    cases hunchanged : f.isUnchanged (k.record.get? f.column) value with
    | true => exact ⟨w, [], rfl, .refl w, fun v _ _ _ => iff_of_true rfl hok⟩
    | false =>
      have hstored : (s.resource.isIdentity f.name && !s.creating) = true := by
        simp [hidentity, Scope.creating, hknown]
      rw [hstored]
      obtain ⟨after, hissue, hmoves⟩ := issue_run (joinPath s.path key) .identityImmutable w
      refine ⟨after, [Defect.identityImmutable.issueAt (joinPath s.path key)], ?_, hmoves,
        fun v hraw hcoerce hget => ?_⟩
      · simp only [Bool.false_eq_true, if_false, if_true]
        rw [bind_of_ok hissue]
        rfl
      · cases hcoerce.symm.trans (Field.coerce_of_check hraw hcheck)
        rw [hget, Field.isUnchanged_self] at hunchanged
        cases hunchanged

/-- Reading an item writes nothing. It finds no issue if the item spells the identity of the row, and the
rules accept it. -/
theorem readFields_identity (hknown : s.known = some k)
    (hr : site.registry.schema.resource? s.resource.name = some s.resource)
    {members : List (String × Json)}
    (honly : ∀ e ∈ members, e.1 = DocumentOp.key ∨ e.1 ∈ s.resource.identity) (w : Walk) :
    ∃ after found, (site.readFields s members).run.run w = (.ok .empty, after) ∧
      Moves w after [] [] found ∧ ((∀ f ∈ s.resource.identityFields, ∀ raw, (f.name, raw) ∈ members →
        ∃ v, raw ≠ .null ∧ f.type.coerce raw = .ok v ∧ k.record.get? f.column = some v) →
          (found = [] ↔ s.resource.accepts members = true)) := by
  unfold readFields Resource.accepts
  generalize Dict.empty = start
  induction members generalizing w with
  | nil => exact ⟨w, [], rfl, .refl w, fun _ => by simp⟩
  | cons e rest ih =>
    obtain ⟨key, raw⟩ := e
    rw [List.foldlM_cons]
    have hrest := ih fun e he => honly e (List.mem_cons_of_mem _ he)
    dsimp only
    by_cases hskips : key = DocumentOp.key ∨ key = selfKey ∨ (s.resource.relationship? key).isSome = true
    · rw [if_pos hskips, bind_of_ok (show (pure start : Walking Record).run.run w = (.ok start, w) from rfl)]
      obtain ⟨after, found, hrun, hmoves, hiff⟩ := hrest w
      refine ⟨after, found, hrun, hmoves, fun hagree => ?_⟩
      rw [hiff fun f hf raw hraw => hagree f hf raw (List.mem_cons_of_mem _ hraw), List.all_cons]
      have hskip : decide (s.resource.Skips key) = true := decide_eq_true hskips
      simp only [hskip, Bool.true_or, Bool.true_and]
    · rw [if_neg hskips]
      have hkey : key ∈ s.resource.identity :=
        (honly (key, raw) List.mem_cons_self).resolve_left fun hop => hskips (.inl hop)
      obtain ⟨f, hf⟩ := (Schema.faultless_of_resource? hr).2.1 key hkey
      have hname : f.name = key := by simpa using List.find?_some hf
      have hfield : f ∈ s.resource.identityFields := List.mem_filterMap.2 ⟨key, hkey, hf⟩
      have hidentity : s.resource.isIdentity f.name = true := decide_eq_true (hname ▸ hkey)
      obtain ⟨between, first, hread, hmoves, hiff⟩ :=
        readField_identity site hknown hidentity hf start raw w
      rw [bind_of_ok hread]
      obtain ⟨after, found, hrun, hmoves', hiff'⟩ := hrest between
      refine ⟨after, first ++ found, hrun, hmoves.trans hmoves', fun hagree => ?_⟩
      obtain ⟨v, hraw, hcoerce, hget⟩ := hagree f hfield raw (hname ▸ List.mem_cons_self)
      rw [List.append_eq_nil_iff, hiff v hraw hcoerce hget,
        hiff' fun f hf raw hraw => hagree f hf raw (List.mem_cons_of_mem _ hraw), List.all_cons,
        Bool.and_eq_true]
      refine and_congr_left fun _ => ?_
      have hskip : decide (s.resource.Skips key) = false := decide_eq_false hskips
      simp only [hskip, Bool.false_or, hf, Option.all_some]

/-! ## Relationships of a document -/

section

variable {s : Scope} {rel : Relationship} {target : Resource} {reference : EntityRef} {mode : WriteMode}

/-- Members that are no relationships are passed over. -/
theorem visitRelationships_append {members : List (String × Json)}
    (h : ∀ e ∈ members, e.1 = DocumentOp.key ∨ s.resource.relationship? e.1 = none)
    (rest : List (String × Json)) :
    site.visitRelationships s reference mode (members ++ rest) =
      site.visitRelationships s reference mode rest := by
  induction members with
  | nil => rfl
  | cons e members ih =>
    obtain ⟨key, raw⟩ := e
    have hrest := ih fun e he => h e (List.mem_cons_of_mem _ he)
    rw [List.cons_append, visitRelationships]
    by_cases hskips : key = DocumentOp.key ∨ key = selfKey
    · rw [if_pos hskips]
      exact hrest
    · have hnone : s.resource.relationship? key = none :=
        (h (key, raw) List.mem_cons_self).resolve_left fun hop => hskips (.inl hop)
      rw [if_neg hskips, hnone]
      exact hrest

/-- The items of a relationship that may be written are walked over, and a replacement detaches what they do
not mention. -/
theorem visitRelationships_items (site : WalkSite) (reference : EntityRef) (mode : WriteMode)
    (items : List Json) (hrel : s.resource.relationship? rel.name = some rel) (hmany : rel.isMany = true)
    (hnames : rel.name ≠ DocumentOp.key ∧ rel.name ≠ selfKey) (hwritable : rel.readOnly = false)
    (htarget : site.registry.schema.target? rel = some target) (rest : List (String × Json)) (w : Walk) :
    (site.visitRelationships s reference mode ((rel.name, .arr items) :: rest)).run.run w = (do
      let mentioned ← site.visitItems target (joinPath s.path rel.name)
        ⟨s.resource, rel, reference, s.existing⟩ 0 items
      if mode = .replace && !s.creating then
        site.unlinkAbsent ⟨s.resource, rel, reference, s.existing⟩ target mentioned
      site.visitRelationships s reference mode rest : Walking Unit).run.run w := by
  rw [visitRelationships, if_neg (not_or.2 hnames), hrel]
  dsimp only
  rw [if_neg (show ¬(Json.arr items).isString = true from Bool.false_ne_true), hwritable,
    if_neg Bool.false_ne_true, bind_of_ok (liftM_ok (Schema.require_eq_ok.2 htarget) w)]
  simp only [hmany, if_true]

/-- Items of a relationship that is only read are an issue. -/
theorem visitRelationships_readOnly (site : WalkSite) (reference : EntityRef) (mode : WriteMode)
    (items : List Json) (hrel : s.resource.relationship? rel.name = some rel)
    (hnames : rel.name ≠ DocumentOp.key ∧ rel.name ≠ selfKey) (hreadOnly : rel.readOnly = true)
    (rest : List (String × Json)) (w : Walk) :
    (site.visitRelationships s reference mode ((rel.name, .arr items) :: rest)).run.run w = (do
      issue (joinPath s.path rel.name) (.relationshipReadOnly rel.name)
      site.visitRelationships s reference mode rest : Walking Unit).run.run w := by
  rw [visitRelationships, if_neg (not_or.2 hnames), hrel]
  dsimp only
  rw [if_neg (show ¬(Json.arr items).isString = true from Bool.false_ne_true), if_pos hreadOnly]

/-- The member of a to-one relationship that may be written is walked over, or detached. -/
theorem visitRelationships_one (site : WalkSite) (reference : EntityRef) (mode : WriteMode) {raw : Json}
    (hrel : s.resource.relationship? rel.name = some rel) (hone : rel.isMany = false)
    (hnames : rel.name ≠ DocumentOp.key ∧ rel.name ≠ selfKey)
    (hwritable : rel.readOnly = false) (htarget : site.registry.schema.target? rel = some target)
    (hraw : raw.isString = false) (rest : List (String × Json)) (w : Walk) :
    (site.visitRelationships s reference mode ((rel.name, raw) :: rest)).run.run w = (do
      if raw.isObject then
        let _ ← site.visit target (joinPath s.path rel.name)
          (.nested ⟨s.resource, rel, reference, s.existing⟩) .patch raw
      else if raw.isNull then site.unlinkAbsent ⟨s.resource, rel, reference, s.existing⟩ target []
      else issue (joinPath s.path rel.name) (.relationshipShape rel.name false)
      site.visitRelationships s reference mode rest : Walking Unit).run.run w := by
  rw [visitRelationships, if_neg (not_or.2 hnames), hrel]
  dsimp only
  rw [hraw, if_neg Bool.false_ne_true, hwritable, if_neg Bool.false_ne_true,
    bind_of_ok (liftM_ok (Schema.require_eq_ok.2 htarget) w), hone, if_neg Bool.false_ne_true]

/-- Of the members of a document only relationships are walked over. -/
theorem visitRelationships_alone {before rest : List (String × Json)} {e : String × Json}
    (h : ∀ e ∈ before ++ rest, s.resource.relationship? e.1 = none) :
    site.visitRelationships s reference mode (before ++ e :: rest) =
      site.visitRelationships s reference mode [e] := by
  have hrest : site.visitRelationships s reference mode (rest ++ []) =
      site.visitRelationships s reference mode [] :=
    visitRelationships_append (fun e he => .inr (h e (List.mem_append_right _ he))) []
  rw [List.append_nil] at hrest
  rw [visitRelationships_append fun e he => .inr (h e (List.mem_append_left _ he)), visitRelationships,
    hrest, ← visitRelationships]

end

/-! ## Walking over items -/

/-- What is known of the stored entities that a walk has met. -/
def Meets (site : WalkSite) (target : Resource) (P : Identity → Record → Known → Prop) (w : Walk) : Prop :=
  ∀ j row, site.tables.Stores target j row → ∀ k, firstOf? (target.name, j.key) w.known = some k → P j row k

/-- A walk that stands among the items of a relationship: entities of the target that it has met are
those that are stored, and the members are those of a set. -/
structure Collecting (site : WalkSite) (p : Parent) (target : Resource) (record : Record) (w : Walk)
    (member : String → Bool) : Prop where
  met : site.Meets target (fun j _ k => k.reference = .existing j) w
  members : ∀ key, site.hasMember p target record w key = member key

/-- What is known of stored entities has their identities. -/
def Agrees (site : WalkSite) (target : Resource) (w : Walk) : Prop :=
  site.Meets target (fun j _ k => target.identityOf? k.record = some j) w

variable {p : Parent} {target : Resource} {i j : Identity} {record row : Record} {after : Walk}
  {member : String → Bool}

/-- A stored entity is learnt as it is stored. -/
theorem Meets.learn {P : Identity → Record → Known → Prop} (h : site.Meets target P w)
    (hstores : site.tables.Stores target j row) {k : Known} (hk : P j row k) :
    site.Meets target P { w with known := ((target.name, j.key), k) :: w.known } := by
  intro l other hl k' hk'
  by_cases hkey : l.key = j.key
  · rw [hkey, firstOf?_cons_self] at hk'
    cases hk'
    obtain rfl := hl.eq_of_key hstores hkey
    cases hl.row.symm.trans hstores.row
    exact hk
  · rw [firstOf?_cons_of_ne fun hsame => hkey (congrArg Prod.snd hsame).symm] at hk'
    exact h l other hl k' hk'

theorem Meets.moves {P : Identity → Record → Known → Prop} (h : site.Meets target P w)
    {commands : List Command} {ms : List (LinkKey × Bool)} {found : List Issue}
    (hmoves : Moves w after commands ms found) : site.Meets target P after :=
  fun j row hstores k hk => h j row hstores k (hmoves.known ▸ hk)

theorem Collecting.moves (h : site.Collecting p target record w member) {commands : List Command}
    {found : List Issue} (hmoves : Moves w after commands [] found) :
    site.Collecting p target record after member where
  met := h.met.moves hmoves
  members key := by
    rw [← h.members key, hasMember, hasMember, hmoves.memberships, List.nil_append]

theorem Collecting.remembers (h : site.Collecting p target record w member) {commands : List Command}
    {found : List Issue} {b : Bool} (hmoves : Moves w after commands [(p.linkKey (.existing j), b)] found) :
    site.Collecting p target record after (Function.update member j.key b) where
  met := h.met.moves hmoves
  members key := by
    rw [Function.update_apply, ← h.members key, hasMember, hasMember, hmoves.memberships,
      List.singleton_append]
    by_cases hkey : key = j.key
    · subst hkey
      have hlink : p.linkKey (.existing j) =
        ⟨p.resource.name, p.relationship.name, p.reference.key, j.key⟩ := rfl
      rw [if_pos rfl, hlink, firstOf?_cons_self, Option.getD_some]
    · rw [if_neg hkey, firstOf?_cons_of_ne]
      exact fun hsame => hkey (congrArg LinkKey.child hsame).symm

/-- A stored entity is found, as the walk knows it. -/
theorem lookup_item (hopen : site.registry.IsOpen)
    (htarget : site.registry.schema.resource? target.name = some target)
    (htypes : ∀ f ∈ target.identityFields, f.type.isExact = true)
    (hfiled : site.tables.FiledExactly target) (hw : site.Collecting p target record w member)
    (hstores : site.tables.Stores target j row) :
    ∃ k found, (site.lookup target j).run.run w = (.ok (some k), found) ∧ k.reference = .existing j ∧
      site.Collecting p target record found member ∧ found.plan = w.plan ∧ found.issues = w.issues ∧
      (site.Agrees target w → site.Agrees target found ∧ target.identityOf? k.record = some j) := by
  cases hmet : firstOf? (target.name, j.key) w.known with
  | some k =>
    exact ⟨k, w, lookup_met hmet, hw.met j row hstores k hmet, hw, rfl, rfl,
      fun hagree => ⟨hagree, hagree j row hstores k hmet⟩⟩
  | none =>
    exact ⟨⟨.existing j, row, false⟩, _, lookup_stored hopen htarget htypes hfiled hstores hmet, rfl,
      ⟨hw.met.learn hstores rfl, hw.members⟩, rfl, rfl,
      fun hagree => ⟨Meets.learn hagree hstores hstores.identity, hstores.identity⟩⟩

/-! ## One item -/

/-- The stretch of a walk that plans and remembers what an item changes. -/
abbrev MovesBy (p : Parent) (i : Identity) (member : String → Bool) (m : Mention) (w after : Walk)
    (found : List Issue) : Prop :=
  Moves w after ((m.change member).map (Progress.membershipCommand p.resource p.relationship i))
    ((m.change member).map fun c => (p.linkKey (.existing c.1), c.2)) found

theorem Collecting.movesBy (h : site.Collecting p target record w member) {m : Mention}
    {found : List Issue} (hmoves : MovesBy p i member m w after found) :
    site.Collecting p target record after (m.after member) := by
  unfold MovesBy Mention.change at hmoves
  split at hmoves
  · rename_i hsame
    rw [Mention.after_of_eq hsame]
    exact h.moves hmoves
  · exact h.remembers hmoves

/-- An item that detaches its entity plans that if it is a member. -/
theorem unlink_item (hopen : site.registry.IsOpen) (howns : site.Owns p target i record)
    (htypes : ∀ f ∈ target.identityFields, f.type.isExact = true)
    (hfiled : site.tables.FiledExactly target) (hw : site.Collecting p target record w member)
    {m : Mention} (hstays : m.stays = false) (hstores : site.tables.Stores target m.identity row)
    {child : Known} (hreference : child.reference = .existing m.identity) (path : String) (value : Json) :
    ∃ after found, (site.unlink p target child path value).run.run w = (.ok (), after) ∧
      MovesBy p i member m w after found ∧ (found = [] ↔ m.isFault member = false) := by
  obtain ⟨after, hunlink, hmoves⟩ :=
    howns.unlink_run hopen htypes hfiled hstores hreference path value w
  rw [hw.members m.identity.key] at hmoves
  rw [Mention.isFault_of_removes hstays]
  unfold MovesBy Mention.change
  rw [hstays]
  cases hmember : member m.identity.key with
  | true =>
    rw [hmember, if_pos rfl, linkChange, howns.reference] at hmoves
    exact ⟨after, [], hunlink, hmoves, by simp⟩
  | false =>
    rw [hmember, if_neg Bool.false_ne_true] at hmoves
    exact ⟨after, _, hunlink, hmoves, by simp⟩

/-- An item that keeps its entity plans to make it a member unless it is one. -/
theorem link_item (hopen : site.registry.IsOpen) (howns : site.Owns p target i record)
    (hmany : p.relationship.isMany = true) (htypes : ∀ f ∈ target.identityFields, f.type.isExact = true)
    (hfiled : site.tables.FiledExactly target) (hw : site.Collecting p target record w member)
    {m : Mention} (hstays : m.stays = true) (hstores : site.tables.Stores target m.identity row)
    {child : Known} (hreference : child.reference = .existing m.identity) (path : String) (value : Json) :
    ∃ after found, (site.link p target child (m.op = some .add) path value).run.run w = (.ok (), after) ∧
      MovesBy p i member m w after found ∧ (found = [] ↔ m.isFault member = false) := by
  obtain ⟨after, hlink, hmoves⟩ := howns.link_run hopen htypes hfiled hmany hstores hreference
    (m.op = some .add) path value w
  rw [hw.members m.identity.key] at hmoves
  rw [Mention.isFault_of_stays hstays]
  unfold MovesBy Mention.change
  rw [hstays]
  cases hmember : member m.identity.key with
  | true =>
    rw [hmember, if_pos rfl] at hmoves
    refine ⟨after, _, hlink, hmoves, ?_⟩
    cases decide (m.op = some .add) <;> simp
  | false =>
    rw [hmember, if_neg Bool.false_ne_true, linkChange, howns.reference] at hmoves
    exact ⟨after, [], hlink, hmoves, by simp⟩

/-- An item is opened with what is known of its entity. -/
theorem openObject_item {members : List (String × Json)} {m : Mention}
    (hitem : target.Spells site.tables members m) {k : Known} {between : Walk}
    (hlookup : (site.lookup target m.identity).run.run w = (.ok (some k), between)) (path : String) :
    (site.openObject target path (.nested p) members).run.run w =
      (if m.op = some .remove then do
          site.unlink p target k path (.obj members)
          pure (.settled (some ⟨k.reference, true⟩))
        else pure (.entered m.op (some m.identity) (some k)) : Walking Opened).run.run between := by
  unfold openObject
  rw [bind_of_ok (liftM_ok hitem.op w)]
  have hidentity : (identityOf target path (.nested p) members).run.run w =
      (.ok (some m.identity), w) := by
    unfold identityOf
    rw [hitem.identity]
    rfl
  rw [bind_of_ok hidentity]
  dsimp only
  rw [bind_of_ok hlookup]

/-- The rest of an item that keeps its entity reads its identity fields and links it. -/
theorem enter_item (hopen : site.registry.IsOpen) (howns : site.Owns p target i record)
    (hmany : p.relationship.isMany = true) (htypes : ∀ f ∈ target.identityFields, f.type.isExact = true)
    (hfiled : site.tables.FiledExactly target) (hw : site.Collecting p target record w member)
    {members : List (String × Json)} {m : Mention} (hitem : target.Spells site.tables members m)
    (hstays : m.stays = true) {k : Known} (hreference : k.reference = .existing m.identity) (path : String)
    {s : Scope} (hs : s = ⟨target, path, .nested p, some m.identity, some k⟩) :
    ∃ after found, (do
        let values ← site.readFields s members
        let reference ← site.place s members values
        site.attach s m.op members reference
        site.visitRelationships s reference .patch members
        pure (some ⟨reference, false⟩) : Walking (Option Visited)).run.run w =
          (.ok (some ⟨.existing m.identity, false⟩), after) ∧
      MovesBy p i member m w after found ∧ (target.identityOf? k.record = some m.identity →
        (found = [] ↔ m.isFault member = false ∧ m.isRefused = false)) := by
  subst hs
  have htarget := howns.resource_target
  obtain ⟨row, hstores⟩ := hitem.stored
  obtain ⟨read, first, hread, hreads, haccepts⟩ := readFields_identity
    (s := ⟨target, path, .nested p, some m.identity, some k⟩) rfl htarget hitem.only w
  rw [bind_of_ok hread, bind_of_ok (place_unchanged rfl members read), hreference]
  obtain ⟨after, second, hlink, hmoves, hfault⟩ := link_item hopen howns hmany htypes hfiled
    (hw.moves hreads) hstays hstores
    (show Known.reference ⟨.existing m.identity, k.record, false || k.created⟩ = _ from rfl) path
    (.obj members)
  have hattach : (site.attach ⟨target, path, .nested p, some m.identity, some k⟩ m.op members
      (.existing m.identity)).run.run read = (.ok (), after) := hlink
  rw [bind_of_ok hattach]
  -- Fields of the identity are no relationships.
  have hskip : site.visitRelationships ⟨target, path, .nested p, some m.identity, some k⟩
      (.existing m.identity) .patch (members ++ []) = pure () := by
    rw [visitRelationships_append fun e he => (hitem.only e he).imp id fun hid => by
      obtain ⟨f, hf⟩ := (Schema.faultless_of_resource? htarget).2.1 e.1 hid
      exact Schema.relationship?_of_field? htarget hf, visitRelationships]
  rw [List.append_nil] at hskip
  rw [hskip]
  have hboth := hreads.trans hmoves
  rw [List.nil_append, List.append_nil] at hboth
  refine ⟨after, first ++ second, rfl, hboth, fun hidentity => ?_⟩
  have hvalid : first = [] ↔ m.valid = true := by
    rw [hitem.valid]
    exact haccepts fun f hf raw hraw =>
      Resource.coerce_of_identityIn? hitem.nodup hitem.identity hidentity hf hraw
  rw [List.append_eq_nil_iff, hvalid, hfault, Mention.isRefused, hstays, Bool.true_and, and_comm,
    Bool.not_eq_false']

theorem visit_item (hopen : site.registry.IsOpen) (howns : site.Owns p target i record)
    (hmany : p.relationship.isMany = true) (htypes : ∀ f ∈ target.identityFields, f.type.isExact = true)
    (hfiled : site.tables.FiledExactly target) (hw : site.Collecting p target record w member)
    {members : List (String × Json)} {m : Mention} (hitem : target.Spells site.tables members m)
    (path : String) :
    ∃ after found, (site.visit target path (.nested p) .patch (.obj members)).run.run w =
        (.ok (some ⟨.existing m.identity, !m.stays⟩), after) ∧
      site.Collecting p target record after (m.after member) ∧
      after.plan.commands = w.plan.commands ++
        (m.change member).map (Progress.membershipCommand p.resource p.relationship i) ∧
      after.issues = w.issues ++ found ∧ (site.Agrees target w → site.Agrees target after ∧
        (found = [] ↔ m.isFault member = false ∧ m.isRefused = false)) := by
  obtain ⟨row, hstores⟩ := hitem.stored
  obtain ⟨k, between, hlookup, hreference, hbetween, hplan, hissues, hagrees⟩ :=
    lookup_item hopen howns.resource_target htypes hfiled hw hstores
  have hopened := openObject_item (p := p) hitem hlookup path
  suffices hsuffices : ∃ after found,
      (site.visit target path (.nested p) .patch (.obj members)).run.run w =
          (.ok (some ⟨.existing m.identity, !m.stays⟩), after) ∧ MovesBy p i member m between after found ∧
      (target.identityOf? k.record = some m.identity →
        (found = [] ↔ m.isFault member = false ∧ m.isRefused = false)) by
    obtain ⟨after, found, hrun, hmoves, hclean⟩ := hsuffices
    exact ⟨after, found, hrun, hbetween.movesBy hmoves, hplan ▸ hmoves.commands, hissues ▸ hmoves.issues,
      fun hagree => ⟨Meets.moves (hagrees hagree).1 hmoves, hclean (hagrees hagree).2⟩⟩
  rw [visit]
  cases hstays : m.stays with
  | false =>
    have hop : m.op = some .remove := not_not.1 (of_decide_eq_false hstays)
    obtain ⟨after, found, hunlink, hmoves, hfault⟩ := unlink_item hopen howns htypes hfiled hbetween hstays
      hstores hreference path (.obj members)
    rw [if_pos hop, bind_of_ok hunlink] at hopened
    rw [bind_of_ok hopened, hreference]
    refine ⟨after, found, rfl, hmoves, fun _ => hfault.trans ?_⟩
    simp [Mention.isRefused, hstays]
  | true =>
    have hop : m.op ≠ some .remove := of_decide_eq_true hstays
    obtain ⟨after, found, henter, hmoves, hclean⟩ := enter_item hopen howns hmany htypes hfiled hbetween
      hitem hstays hreference path rfl
    rw [if_neg hop] at hopened
    rw [bind_of_ok hopened]
    exact ⟨after, found, henter, hmoves, hclean⟩

/-- Items plan what they change, one after the other. An issue is found iff one of them is a fault or is
refused. -/
theorem visitItems_run (hopen : site.registry.IsOpen) (howns : site.Owns p target i record)
    (hmany : p.relationship.isMany = true) (htypes : ∀ f ∈ target.identityFields, f.type.isExact = true)
    (hfiled : site.tables.FiledExactly target) {items : List Json} {mentions : List Mention}
    (hitems : target.SpellsAll site.tables items mentions) (path : String) (index : Nat)
    (hw : site.Collecting p target record w member) :
    ∃ after found kept, (site.visitItems target path p index items).run.run w = (.ok kept, after) ∧
      site.Collecting p target record after (mentions.foldl Mention.after member) ∧
      after.plan.commands = w.plan.commands ++ (Mention.changes member mentions).map
        (Progress.membershipCommand p.resource p.relationship i) ∧
      after.issues = w.issues ++ found ∧
      (∀ key, key ∈ kept ↔ ∃ m ∈ mentions, m.stays = true ∧ m.identity.key = key) ∧
      (site.Agrees target w → (found = [] ↔ Mention.meetsFault member mentions = false ∧
        ∀ m ∈ mentions, m.isRefused = false)) := by
  induction hitems generalizing w member index with
  | nil =>
    refine ⟨w, [], [], by rw [visitItems]; rfl, hw, (List.append_nil _).symm, (List.append_nil _).symm,
      fun key => by simp, fun _ => by simp [Mention.meetsFault]⟩
  | @cons item m items mentions hitem _ ih =>
    obtain ⟨members, rfl, hspells⟩ := hitem
    obtain ⟨between, first, hvisit, hbetween, hcommands, hissues, hagrees⟩ :=
      visit_item hopen howns hmany htypes hfiled hw hspells (joinPath path (toString index))
    obtain ⟨after, rest, kept, hrun, hafter, hcommands', hissues', hkept, hclean⟩ := ih (index + 1) hbetween
    rw [visitItems, bind_of_ok hvisit, bind_of_ok hrun]
    refine ⟨after, first ++ rest, _, rfl, hafter, ?_, ?_, fun key => ?_, fun hagree => ?_⟩
    · rw [hcommands', hcommands, Mention.changes, List.map_append, List.append_assoc]
    · rw [hissues', hissues, List.append_assoc]
    · simp only [List.mem_cons, exists_eq_or_imp, ← hkept]
      cases hstays : m.stays with
      | true => simp [EntityRef.key, eq_comm]
      | false => simp
    · obtain ⟨hagree', hfirst⟩ := hagrees hagree
      rw [List.append_eq_nil_iff, hfirst, hclean hagree', Mention.meetsFault, Bool.or_eq_false_iff,
        List.forall_mem_cons]
      tauto

end WalkSite

end NestedResources
