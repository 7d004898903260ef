import NestedResources.Proofs.Write.Items

/-!
# Documents that echo the store

A document may say of an entity nothing but what is stored: its identity, its fields, and the members of
its relationships with theirs, as deep as it goes. A walk over such a document plans nothing and finds no
issue (`WalkSite.visit_echo`); it only gets to know the entities that are named.
-/
namespace NestedResources

/-- The value of a field in a row, null if there is none. -/
def Field.valueIn (f : Field) (record : Record) : Json := (record.get? f.column).getD .null

/-- The value that a row has passes the check of its field as it is. -/
def Field.Accepts (f : Field) (record : Record) : Prop :=
  f.check f.name (f.valueIn record) = .ok (f.valueIn record)

mutual

/-- A document that says of an entity what is stored. -/
inductive Echoes (t : Tables) (s : Schema) : Resource → Record → Json → Prop
  | entity {r : Resource} {record : Record} {i : Identity} {members : List (String × Json)}
      (hstores : t.Stores r i record) (hidentity : r.identityIn? members = some i)
      (hop : Entries.get? DocumentOp.key members = none)
      (hmembers : ∀ e ∈ members, EchoesMember t s r record e.1 e.2) : Echoes t s r record (.obj members)

/-- A member of a document that says what is stored of an entity: its URL, a field, or a relationship by a
link or with its members. -/
inductive EchoesMember (t : Tables) (s : Schema) : Resource → Record → String → Json → Prop
  | url {r : Resource} {record : Record} (raw : Json) : EchoesMember t s r record selfKey raw
  | field {r : Resource} {record : Record} {f : Field} (hf : r.field? f.name = some f)
      (haccepts : f.Accepts record) : EchoesMember t s r record f.name (f.valueIn record)
  | link {r : Resource} {record : Record} {rel : Relationship}
      (hrel : r.relationship? rel.name = some rel) (url : String) :
      EchoesMember t s r record rel.name (.str url)
  | many {r target : Resource} {record : Record} {rel : Relationship} {rows : List Record}
      {items : List Json} (hrel : r.relationship? rel.name = some rel)
      (htarget : s.target? rel = some target) (hwritable : rel.readOnly = false)
      (hmany : rel.isMany = true) (hrows : ∀ row, row ∈ rows ↔ row ∈ t.members s r record rel)
      (hitems : EchoesAll t s target rows items) : EchoesMember t s r record rel.name (.arr items)
  | one {r target : Resource} {record row : Record} {rel : Relationship} {document : Json}
      (hrel : r.relationship? rel.name = some rel) (htarget : s.target? rel = some target)
      (hwritable : rel.readOnly = false) (hone : rel.isMany = false)
      (hrow : row ∈ t.members s r record rel) (hdocument : Echoes t s target row document) :
      EchoesMember t s r record rel.name document
  | absent {r target : Resource} {record : Record} {rel : Relationship}
      (hrel : r.relationship? rel.name = some rel) (htarget : s.target? rel = some target)
      (hwritable : rel.readOnly = false) (hone : rel.isMany = false)
      (hnone : t.members s r record rel = []) : EchoesMember t s r record rel.name .null

/-- Documents that say of entities what is stored, one for each. -/
inductive EchoesAll (t : Tables) (s : Schema) : Resource → List Record → List Json → Prop
  | nil {target : Resource} : EchoesAll t s target [] []
  | cons {target : Resource} {row : Record} {rows : List Record} {item : Json} {items : List Json}
      (hitem : Echoes t s target row item) (hitems : EchoesAll t s target rows items) :
      EchoesAll t s target (row :: rows) (item :: items)

end

/-- Rows of every resource are under their exact identities. -/
def Tables.Exact (t : Tables) (s : Schema) : Prop :=
  ∀ r, s.resource? r.name = some r → (∀ f ∈ r.identityFields, f.type.isExact = true) ∧ t.FiledExactly r

theorem Tables.Exact.filed {t : Tables} {s : Schema} (h : t.Exact s) : t.Filed s := by
  intro name key r record hr hrow
  obtain rfl := Schema.name_of_resource? hr
  obtain ⟨i, hi, hkey, -⟩ := (h r hr).2 key record hrow
  exact ⟨i, hi, hkey⟩

namespace WalkSite

open Walking

variable {site : WalkSite} {w after : Walk} {r target : Resource} {i j : Identity} {record row : Record}

/-- A walk that has planned and found nothing, and knows entities as they are stored. -/
structure Idle (site : WalkSite) (w : Walk) : Prop where
  plan : w.plan = {}
  issues : w.issues = []
  memberships : w.memberships = []
  met : ∀ r, site.registry.schema.resource? r.name = some r →
    site.Meets r (fun j row k => k = ⟨.existing j, row, false⟩) w

theorem Idle.start : site.Idle {} := ⟨rfl, rfl, rfl, fun _ _ _ _ _ _ h => by cases h⟩

/-- A walk gets to know an entity as it is stored. -/
theorem Idle.learn (h : site.Idle w) (hr : site.registry.schema.resource? r.name = some r)
    (hstores : site.tables.Stores r i record) :
    site.Idle { w with known := ((r.name, i.key), ⟨.existing i, record, false⟩) :: w.known } := by
  refine ⟨h.plan, h.issues, h.memberships, fun r' hr' => ?_⟩
  by_cases hname : r'.name = r.name
  · obtain rfl := Schema.eq_of_name hr' hr hname
    exact (h.met r' hr').learn hstores rfl
  · intro j row hrow k hk
    rw [firstOf?_cons_of_ne fun hsame => hname (congrArg Prod.fst hsame).symm] at hk
    exact h.met r' hr' j row hrow k hk

theorem Idle.hasMember_iff (h : site.Idle w) {p : Parent} {key : String} :
    site.hasMember p target record w key = true ↔
      key ∈ site.tables.memberKeys site.registry.schema p.resource target record p.relationship := by
  rw [hasMember, h.memberships]
  exact decide_eq_true_iff

/-- A field that has the stored value is left alone. -/
theorem readField_echo {s : Scope} {k : Known} (hknown : s.known = some k) {f : Field}
    (hf : s.resource.field? f.name = some f) (haccepts : f.Accepts k.record) (values : Record) (w : Walk) :
    (site.readField s values f.name (f.valueIn k.record)).run.run w = (.ok values, w) := by
  have hunchanged : f.isUnchanged (k.record.get? f.column) (f.valueIn k.record) = true := by
    unfold Field.valueIn
    cases k.record.get? f.column with
    | none => rfl
    | some v => exact f.isUnchanged_self v
  unfold readField
  rw [hf]
  dsimp only
  rw [Field.check_of_path haccepts (joinPath s.path f.name)]
  dsimp only
  rw [hknown, Option.any_some, hunchanged, if_pos rfl]
  rfl

/-- What is read of such a document writes nothing. -/
theorem readFields_echo {s : Scope} {k : Known} (hknown : s.known = some k)
    {members : List (String × Json)} (h : ∀ e ∈ members,
      EchoesMember site.tables site.registry.schema s.resource k.record e.1 e.2) (w : Walk) :
    (site.readFields s members).run.run w = (.ok .empty, w) := by
  unfold readFields
  generalize Dict.empty = start
  induction members with
  | nil => rfl
  | cons e rest ih =>
    have hrest := ih fun e he => h e (List.mem_cons_of_mem _ he)
    obtain ⟨key, raw⟩ := e
    rw [List.foldlM_cons]
    dsimp only
    have hstep : (if key = DocumentOp.key ∨ key = selfKey ∨ (s.resource.relationship? key).isSome then
        pure start else site.readField s start key raw : Walking Record).run.run w = (.ok start, w) := by
      split
      · rfl
      rename_i hreads
      have hskips : ∀ {rel : Relationship}, s.resource.relationship? rel.name = some rel → key ≠ rel.name :=
        fun hrel hname => hreads (.inr (.inr (hname ▸ Option.isSome_of_eq_some hrel)))
      have hentry := h (key, raw) List.mem_cons_self
      cases hentry with
      | url => exact absurd (.inr (.inl rfl)) hreads
      | field hf haccepts => exact readField_echo hknown hf haccepts start w
      | link hrel => exact absurd rfl (hskips hrel)
      | many hrel => exact absurd rfl (hskips hrel)
      | one hrel => exact absurd rfl (hskips hrel)
      | absent hrel => exact absurd rfl (hskips hrel)
    exact (bind_of_ok hstep).trans hrest

/-- Required fields that are given are no issue. -/
theorem requireFields_echo {s : Scope} {members : List (String × Json)}
    (h : ∀ f ∈ s.resource.fields, f.requiredOnInput = true → (Entries.get? f.name members).isSome = true)
    (w : Walk) : (requireFields s members).run.run w = (.ok (), w) := by
  unfold requireFields
  have hgiven : ∀ f ∈ s.resource.fields.filter Field.requiredOnInput,
      (Entries.get? f.name members).isSome = true := fun f hf =>
    h f (List.mem_filter.1 hf).1 (List.mem_filter.1 hf).2
  dsimp only
  generalize s.resource.fields.filter Field.requiredOnInput = fields at hgiven
  induction fields with
  | nil => rfl
  | cons f rest ih =>
    refine (bind_of_ok (a := ()) ?_).trans (ih fun g hg => hgiven g (List.mem_cons_of_mem f hg))
    dsimp only
    rw [hgiven f List.mem_cons_self]
    rfl

/-- The rest of an object that is found comes down to walking over its relationships. -/
theorem entered_echo {s : Scope} (hknown : s.known = some ⟨.existing i, record, false⟩) {mode : WriteMode}
    {members : List (String × Json)} (hmembers : ∀ e ∈ members,
      EchoesMember site.tables site.registry.schema s.resource record e.1 e.2)
    (hrequired : mode = .replace → ∀ f ∈ s.resource.fields, f.requiredOnInput = true →
      (Entries.get? f.name members).isSome = true)
    (hattach : (site.attach s none members (.existing i)).run.run w = (.ok (), w)) :
    (do
      let values ← site.readFields s members
      if s.creating || mode = .replace then requireFields s members
      let reference ← site.place s members values
      site.attach s none members reference
      site.visitRelationships s reference mode members
      pure (some ⟨reference, false⟩) : Walking (Option Visited)).run.run w = (do
        site.visitRelationships s (.existing i) mode members
        pure (some ⟨.existing i, false⟩) : Walking (Option Visited)).run.run w := by
  rw [bind_of_ok (readFields_echo hknown hmembers w)]
  have hrest : (do
      let reference ← site.place s members .empty
      site.attach s none members reference
      site.visitRelationships s reference mode members
      pure (some ⟨reference, false⟩) : Walking (Option Visited)).run.run w = (do
        site.visitRelationships s (.existing i) mode members
        pure (some ⟨.existing i, false⟩) : Walking (Option Visited)).run.run w := by
    rw [bind_of_ok (place_unchanged hknown members w), bind_of_ok hattach]
  split
  · rename_i hreplace
    have hmode : mode = .replace := by simpa [Scope.creating, hknown] using hreplace
    exact (bind_of_ok (requireFields_echo (hrequired hmode) w)).trans hrest
  · exact hrest

section

variable (hopen : site.registry.IsOpen) (hexact : site.tables.Exact site.registry.schema)
include hopen hexact

theorem lookup_echo (hw : site.Idle w) (hr : site.registry.schema.resource? r.name = some r)
    (hstores : site.tables.Stores r i record) :
    ∃ after, (site.lookup r i).run.run w = (.ok (some ⟨.existing i, record, false⟩), after) ∧
      site.Idle after := by
  cases hmet : firstOf? (r.name, i.key) w.known with
  | some k =>
    obtain rfl := hw.met r hr i record hstores k hmet
    exact ⟨w, lookup_met hmet, hw⟩
  | none =>
    obtain ⟨htypes, hfiled⟩ := hexact r hr
    exact ⟨_, lookup_stored hopen hr htypes hfiled hstores hmet, hw.learn hr hstores⟩

/-- A nested object is found under its identity. -/
theorem openObject_echo (hw : site.Idle w) {p : Parent}
    (htarget : site.registry.schema.resource? target.name = some target)
    (hstores : site.tables.Stores target j row) {members : List (String × Json)}
    (hidentity : target.identityIn? members = some j) (hop : Entries.get? DocumentOp.key members = none)
    (path : String) :
    ∃ after, (site.openObject target path (.nested p) members).run.run w =
      (.ok (.entered none (some j) (some ⟨.existing j, row, false⟩)), after) ∧ site.Idle after := by
  obtain ⟨after, hlookup, hafter⟩ := lookup_echo hopen hexact hw htarget hstores
  refine ⟨after, ?_, hafter⟩
  have hread : DocumentOp.ofMembers? members = .ok none := by rw [DocumentOp.ofMembers?, hop]
  have hgiven : (identityOf target path (.nested p) members).run.run w = (.ok (some j), w) := by
    unfold identityOf
    rw [hidentity]
    rfl
  unfold openObject
  rw [bind_of_ok (liftM_ok hread w), bind_of_ok hgiven]
  dsimp only
  rw [bind_of_ok hlookup]
  rfl

end

mutual

/-- A nested document that says what is stored changes nothing. -/
theorem visit_echo (hopen : site.registry.IsOpen) (hexact : site.tables.Exact site.registry.schema)
    {p : Parent} {target : Resource} {i : Identity} {record row : Record} {w : Walk} (path : String)
    (howns : site.Owns p target i record)
    (hmember : row ∈ site.tables.members site.registry.schema p.resource record p.relationship)
    (hw : site.Idle w) :
    ∀ document : Json, Echoes site.tables site.registry.schema target row document →
      ∃ j after, target.identityOf? row = some j ∧
        (site.visit target path (.nested p) .patch document).run.run w =
          (.ok (some ⟨.existing j, false⟩), after) ∧ site.Idle after
  | .obj members, h => by
    cases h with
    | @entity _ _ j _ hstores hidentity hop hmembers =>
      have htarget := howns.resource_target
      obtain ⟨htypes, hfiled⟩ := hexact target htarget
      obtain ⟨found, hopened, hfound⟩ :=
        openObject_echo hopen hexact hw (p := p) htarget hstores hidentity hop path
      have hkey : site.hasMember p target record found j.key = true :=
        hfound.hasMember_iff.2 (Tables.mem_memberKeys.2 ⟨row, hmember, j, hstores.identity, rfl⟩)
      have hattach : (site.attach ⟨target, path, .nested p, some j, some ⟨.existing j, row, false⟩⟩ none
          members (.existing j)).run.run found = (.ok (), found) :=
        howns.link_of_member htypes hfiled hstores hkey rfl path (.obj members)
      obtain ⟨after, hwalk, hafter⟩ := visitRelationships_echo hopen hexact
        (s := ⟨target, path, .nested p, some j, some ⟨.existing j, row, false⟩⟩) .patch htarget hstores hfound
        members hmembers
      refine ⟨j, after, hstores.identity, ?_, hafter⟩
      rw [visit, bind_of_ok hopened]
      exact (entered_echo rfl hmembers (fun hmode => by cases hmode) hattach).trans (bind_of_ok hwalk)
  | .null, h | .bool _, h | .num _, h | .str _, h | .arr _, h => by cases h
termination_by document => sizeOf document

/-- Relationships that are as they are stored are left alone. -/
theorem visitRelationships_echo (hopen : site.registry.IsOpen)
    (hexact : site.tables.Exact site.registry.schema) {s : Scope} {i : Identity} {record : Record} {w : Walk}
    (mode : WriteMode)
    (hr : site.registry.schema.resource? s.resource.name = some s.resource)
    (hstores : site.tables.Stores s.resource i record) (hw : site.Idle w) :
    ∀ members : List (String × Json), (∀ e ∈ members,
        EchoesMember site.tables site.registry.schema s.resource record e.1 e.2) →
      ∃ after, (site.visitRelationships s (.existing i) mode members).run.run w = (.ok (), after) ∧
        site.Idle after
  | [], _ => ⟨w, by rw [visitRelationships]; rfl, hw⟩
  | (key, raw) :: rest, h => by
    have hrest := fun {between : Walk} (hbetween : site.Idle between) =>
      visitRelationships_echo hopen hexact mode hr hstores hbetween rest fun e he =>
        h e (List.mem_cons_of_mem _ he)
    have howns : ∀ {rel target}, s.resource.relationship? rel.name = some rel →
        site.registry.schema.target? rel = some target →
          site.Owns ⟨s.resource, rel, .existing i, s.existing⟩ target i record :=
      fun hrel htarget => ⟨hr, hrel, htarget, rfl, hstores.row⟩
    by_cases hskips : key = DocumentOp.key ∨ key = selfKey
    · rw [visitRelationships, if_pos hskips]
      exact hrest hw
    obtain hnames := not_or.1 hskips
    have hentry := h (key, raw) List.mem_cons_self
    cases hentry with
    | url => exact absurd rfl hnames.2
    | field hf =>
      rw [visitRelationships, if_neg hskips, Schema.relationship?_of_field? hr hf]
      exact hrest hw
    | link hrel =>
      rw [visitRelationships, if_neg hskips, hrel]
      exact hrest hw
    | @many _ target _ rel rows items hrel htarget hwritable hmany hrows hitems =>
      obtain ⟨kept, between, hrun, hbetween, hkept⟩ := visitItems_echo hopen hexact
        (joinPath s.path rel.name) 0 (howns hrel htarget) (fun row hrow => (hrows row).1 hrow) hw items hitems
      rw [site.visitRelationships_items _ _ _ hrel hmany hnames hwritable htarget, bind_of_ok hrun]
      split
      · -- Every member is mentioned.
        rw [bind_of_ok ((howns hrel htarget).unlinkAbsent_of_kept hopen
          (fun row hrow => hkept row ((hrows row).2 hrow)) between)]
        exact hrest hbetween
      · exact hrest hbetween
    | @one _ target _ row rel _ hrel htarget hwritable hone hrow hdocument =>
      obtain ⟨j, between, -, hrun, hbetween⟩ := visit_echo hopen hexact (joinPath s.path rel.name)
        (howns hrel htarget) hrow hw raw hdocument
      have hobject : raw.isString = false ∧ raw.isObject = true := by
        cases hdocument
        exact ⟨rfl, rfl⟩
      rw [site.visitRelationships_one _ _ hrel hone hnames hwritable htarget hobject.1, if_pos hobject.2,
        bind_of_ok hrun]
      exact hrest hbetween
    | @absent _ target _ rel hrel htarget hwritable hone hnone =>
      have hnobody : ∀ row ∈ site.tables.members site.registry.schema s.resource record rel, ∀ j,
          target.identityOf? row = some j → j.key ∈ ([] : List String) := by
        rw [hnone]
        exact fun row hrow => by cases hrow
      rw [site.visitRelationships_one _ _ hrel hone hnames hwritable htarget rfl,
        if_neg (show ¬Json.null.isObject = true from Bool.false_ne_true), if_pos (by rfl),
        bind_of_ok ((howns hrel htarget).unlinkAbsent_of_kept hopen hnobody w)]
      exact hrest hw
termination_by members => sizeOf members

/-- Items that say what is stored mention the entities that they are about. -/
theorem visitItems_echo (hopen : site.registry.IsOpen) (hexact : site.tables.Exact site.registry.schema)
    {p : Parent} {target : Resource} {i : Identity} {record : Record} {rows : List Record} {w : Walk}
    (path : String) (index : Nat) (howns : site.Owns p target i record)
    (hmembers : ∀ row ∈ rows,
      row ∈ site.tables.members site.registry.schema p.resource record p.relationship) (hw : site.Idle w) :
    ∀ items : List Json, EchoesAll site.tables site.registry.schema target rows items →
      ∃ kept after, (site.visitItems target path p index items).run.run w = (.ok kept, after) ∧
        site.Idle after ∧ ∀ row ∈ rows, ∀ j, target.identityOf? row = some j → j.key ∈ kept
  | [], h => by
    cases h
    exact ⟨[], w, by rw [visitItems]; rfl, hw, fun row hrow => by cases hrow⟩
  | item :: rest, h => by
    cases h with
    | @cons _ row rows _ _ hitem hitems =>
      obtain ⟨j, between, hj, hvisit, hbetween⟩ := visit_echo hopen hexact (joinPath path (toString index))
        howns (hmembers row List.mem_cons_self) hw item hitem
      obtain ⟨kept, after, hrun, hafter, hkept⟩ := visitItems_echo hopen hexact path (index + 1) howns
        (fun other ho => hmembers other (List.mem_cons_of_mem row ho)) hbetween rest hitems
      rw [visitItems, bind_of_ok hvisit, bind_of_ok hrun]
      refine ⟨j.key :: kept, after, rfl, hafter, fun other ho k hk => ?_⟩
      rcases List.mem_cons.1 ho with rfl | ho
      · cases hj.symm.trans hk
        exact List.mem_cons_self
      · exact List.mem_cons_of_mem _ (hkept other ho k hk)
termination_by items => sizeOf items

end

variable (site) in
/-- An update by a document that says what is stored plans nothing and finds nothing. A replacement has to be
given its required fields. -/
theorem update_echo (hopen : site.registry.IsOpen) (hexact : site.tables.Exact site.registry.schema)
    (hr : site.registry.schema.resource? r.name = some r) (hstores : site.tables.Stores r i record)
    {members : List (String × Json)}
    (h : Echoes site.tables site.registry.schema r record (.obj members)) {mode : WriteMode}
    (hrequired : mode = .replace → ∀ f ∈ r.fields, f.requiredOnInput = true →
      (Entries.get? f.name members).isSome = true) :
    ∃ after, (site.update r.name i (.obj members) mode).run.run {} = (.ok [.existing i], after) ∧
      site.Idle after := by
  cases h with
  | @entity _ _ j _ hj hidentity hop hmembers =>
    obtain rfl : j = i := Option.some.inj (hj.identity.symm.trans hstores.identity)
    obtain ⟨htypes, hfiled⟩ := hexact r hr
    have hclean : identityIssues r j members = [] := by
      rw [identityIssues, hidentity, Option.any_some, if_neg (by simp)]
    have hopened := openObject_update hopen hr htypes hfiled hstores hop
    rw [hclean] at hopened
    have hstarted : site.Idle (started r j record) := Idle.start.learn hr hstores
    obtain ⟨after, hwalk, hafter⟩ := visitRelationships_echo hopen hexact
      (s := storedRoot r j record) mode hr hstores hstarted members hmembers
    have hvisit : (site.visit r "" (.root (.update j)) mode (.obj members)).run.run {} =
        (.ok (some ⟨.existing j, false⟩), after) := by
      rw [visit, bind_of_ok hopened]
      exact (entered_echo rfl hmembers hrequired rfl).trans (bind_of_ok hwalk)
    refine ⟨after, ?_, hafter⟩
    unfold update visitRoot
    rw [bind_of_ok (liftM_ok (Schema.require_eq_ok.2 hr) {}), bind_of_ok hvisit]
    rfl

end WalkSite

end NestedResources
