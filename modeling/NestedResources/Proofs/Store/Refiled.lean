import NestedResources.Proofs.Store.Edits

/-!
# Rows under their own keys after a commit

Creations and updates file rows under the keys of their identities. What deletions and unlinks clear may
be part of an identity; a row that lost it has been written, and the commit refuses rows that were written
and lack a required column. Links write columns unchecked, so rows stay under their own keys as long as
no link writes a part of an identity (`Store.filedAt_of_apply`).
-/
namespace NestedResources

/-- The row has no value for a required part of its identity. -/
def Resource.Lacks (r : Resource) (record : Record) : Prop :=
  ∃ f ∈ r.identityFields, f.optional = false ∧ record.value? f.column = none

/-- Parts of the identity that are foreign keys are required. -/
def Resource.RequiresHeld (r : Resource) (s : Schema) : Prop :=
  ∀ source ∈ s.resources, ∀ rel ∈ source.relationships, ∀ k ∈ rel.foreignKey? source,
    k.holder = r.name → ∀ f ∈ r.identityFields, f.column ∈ k.columns → f.optional = false

instance (r : Resource) (s : Schema) : Decidable (r.RequiresHeld s) :=
  inferInstanceAs (Decidable (∀ _, _))

/-- A change of a membership that is not kept in parts of the identity. -/
def Resource.ApartFrom (r : Resource) (s : Schema) (c : LinkChange) : Prop :=
  ∀ owner ∈ s.resource? c.resource, ∀ rel ∈ owner.relationship? c.relationship,
    ∀ k ∈ rel.foreignKey? owner, k.holder = r.name → ∀ column ∈ k.columns, column ∉ r.identityColumns

instance (r : Resource) (s : Schema) (c : LinkChange) : Decidable (r.ApartFrom s c) :=
  inferInstanceAs (Decidable (∀ _, _))

theorem Resource.RequiresHeld.optional_eq_false {r : Resource} {s : Schema} (h : r.RequiresHeld s)
    {k : ForeignKey} (hk : s.HasKey k) (hholder : k.holder = r.name) {f : Field}
    (hf : f ∈ r.identityFields) (hc : f.column ∈ k.columns) : f.optional = false := by
  obtain ⟨source, rel, ⟨hsource, hrel⟩, hkey⟩ := hk
  exact h source (Schema.mem_resources.2 hsource) rel hrel k hkey hholder f hf hc

namespace Progress

variable {s : Schema} {r : Resource} {p q : Progress}

/-! ## What every step keeps -/

/-- Every row of a resource is under its own key, or was written and now lacks a required part of its
identity. -/
def Accounted (r : Resource) (p : Progress) : Prop :=
  ∀ key record, p.tables.rowAt? r.name key = some record →
    r.FiledAt key record ∨ ((r.name, key) ∈ p.touched ∧ r.Lacks record)

/-- A row with the same values in the identity columns. -/
theorem Accounted.of_identity_eq (h : Accounted r p) {key : String} {old new : Record}
    (hrow : p.tables.rowAt? r.name key = some old)
    (hsame : ∀ c ∈ r.identityColumns, new.get? c = old.get? c) : r.FiledAt key new ∨ r.Lacks new := by
  rcases h key old hrow with ⟨i, hi, hkey⟩ | ⟨-, f, hf, hoptional, hnone⟩
  · exact .inl ⟨i, (r.identityOf?_congr hsame).trans hi, hkey⟩
  · exact .inr ⟨f, hf, hoptional,
      (Record.value?_congr (hsame f.column (List.mem_map_of_mem hf))).trans hnone⟩

/-- What one edit keeps, if memberships that begin are not kept in parts of the identity. -/
theorem Accounted.edit (h : Accounted r p) (hs : r.RequiresHeld s) (hr : s.resource? r.name = some r)
    {start : Progress} {c : Command} (hlinks : ∀ k key, c.Links s start k key → k.holder = r.name →
      ∀ column ∈ k.columns, column ∉ r.identityColumns) (hedit : Edit s start c p q) :
    Accounted r q := by
  intro key record hrow
  rcases hedit.row_cases hrow with hold | ⟨htouched, hputs⟩
  · exact (h key record hold).imp id (.imp (fun hmem => hedit.touched hmem) id)
  refine Or.imp id (And.intro htouched) ?_
  cases hputs with
  | row hsource hname _ hfiled =>
    rw [hname] at hsource
    cases hr.symm.trans hsource
    exact .inl hfiled
  | @columns k old values hk hholder hold hvalues =>
    -- What is written is a required part of the identity, which is cleared, or no part of it.
    by_cases hpart : ∃ f ∈ r.identityFields, f.column ∈ k.columns
    · obtain ⟨f, hf, hc⟩ := hpart
      rcases hvalues with hlink | rfl
      · exact absurd (List.mem_map_of_mem hf) (hlinks k key hlink hholder f.column hc)
      · refine .inr ⟨f, hf, hs.optional_eq_false hk hholder hf hc, ?_⟩
        change (old.cleared k.columns).value? f.column = none
        rw [Record.value?, Record.get?_cleared, if_pos hc]
    · refine h.of_identity_eq hold fun c hc => old.get?_assign_of_notMem (fun hcolumn => hpart ?_) values
      obtain ⟨f, hf, rfl⟩ := List.mem_map.1 hc
      exact ⟨f, hf, hcolumn⟩

theorem Accounted.run (h : Accounted r p) (hr : s.resource? r.name = some r) (hs : r.RequiresHeld s)
    {commands : List Command} (hlinks : ∀ change, .link change ∈ commands → r.ApartFrom s change)
    (hok : commands.foldlM (Progress.apply s) p = .ok q) : Accounted r q := by
  refine keeps_of_edits (P := Accounted r)
    (fun ⟨start, c⟩ hx p q hedit h => h.edit hs hr (fun k key hk => ?_) hedit) hok h
  have hc : c ∈ commands := mem_of_mem_stages hx
  cases c with
  | link change =>
    obtain ⟨owner, rel, -, hthrough, hkey, -, -⟩ := hk
    exact hlinks change hc owner hthrough.resource rel hthrough.relationship k hkey
  | _ => cases hk

/-- A row that was written and lacks a required part of its identity stops the commit. -/
theorem Accounted.filed (h : Accounted r p) (hr : s.resource? r.name = some r)
    (hnone : p.emptyColumn? s = none) {key : String} {record : Record}
    (hrow : p.tables.rowAt? r.name key = some record) : r.FiledAt key record := by
  rcases h key record hrow with hfiled | ⟨htouched, f, hf, hoptional, hempty⟩
  · exact hfiled
  · obtain ⟨id, -, hid⟩ := List.mem_filterMap.1 hf
    have hfilled := complete_of_emptyColumn? hnone hr htouched hrow f (List.mem_of_find?_eq_some hid) hoptional
    rw [hempty] at hfilled
    cases hfilled

/-- Rows that were under their own keys are so after a plan that fills the required columns. -/
theorem filedAt_of_run (hfiled : p.tables.Filed s) (hr : s.resource? r.name = some r) (hs : r.RequiresHeld s)
    {commands : List Command} (hlinks : ∀ change, .link change ∈ commands → r.ApartFrom s change)
    (hok : commands.foldlM (Progress.apply s) p = .ok q) (hnone : q.emptyColumn? s = none) {key : String}
    {record : Record} (hrow : q.tables.rowAt? r.name key = some record) : r.FiledAt key record := by
  have hstart : Accounted r p := fun key record hrow => .inl (hfiled r.name key r record hr hrow)
  exact (hstart.run hr hs hlinks hok).filed hr hnone hrow

end Progress

/-- A plan that is committed leaves every row of a resource under the key of its own identity, provided
that no link of the plan writes a part of these identities and that parts of them which are foreign keys
are required. -/
theorem Store.filedAt_of_apply {s : Schema} {r : Resource} {store after : Store} {plan : Plan}
    {report : Report} (hr : s.resource? r.name = some r) (hs : r.RequiresHeld s)
    (hlinks : ∀ change, .link change ∈ plan.commands → r.ApartFrom s change)
    (hfiled : ∀ key record, store.tables.rowAt? r.name key = some record → r.FiledAt key record)
    (h : store.apply s plan = .ok (after, report)) :
    ∀ key record, after.tables.rowAt? r.name key = some record → r.FiledAt key record := by
  obtain ⟨p, hrun, h⟩ := Except.bind_eq_ok.1 h
  have hstart : Progress.Accounted r { store } := fun key record hrow => .inl (hfiled key record hrow)
  have hkept := hstart.run hr hs hlinks hrun
  split at h
  · cases h
  · rename_i hnone
    cases h
    exact fun key record hrow => hkept.filed hr hnone hrow

namespace Music

def folders : Resource where
  name := "folders"
  identity := ["folder_id"]
  fields := [key "folder_id"]

/-- A reference of a score to a folder. -/
def inFolder (name column : String) : Relationship where
  name
  target := "folders"
  cardinality := .manyToOne
  join := .foreignKey [column] ["folder_id"]

/-- Scores are numbered within their folder, and may be copied from another one. -/
def scores (folderOptional : Bool) : Resource where
  name := "scores"
  identity := ["folder_id", "number"]
  fields := [{ field "folder_id" .integer with optional := folderOptional }, field "number" .integer,
    { field "source_id" .integer with optional := true }]
  relationships := [inFolder "folder" "folder_id", inFolder "source" "source_id"]

def scoreSchema : Schema where
  table := .ofList [("folders", folders), ("scores", scores false)]
  named := by decide +kernel
  faultless := by decide +kernel

/-- The same with scores that may be in no folder. -/
def looseSchema : Schema where
  table := .ofList [("folders", folders), ("scores", scores true)]
  named := by decide +kernel
  faultless := by decide +kernel

def score : Record := .ofList [("folder_id", .int 1), ("number", .int 1)]

/-- Three folders, and one score in the first. -/
def scoreTables : Tables :=
  let folders : List Int := [1, 2, 3]
  (folders.foldl (fun (t : Tables) n => t.putRow "folders" (keyOf n) (.ofList [("folder_id", .int n)]))
    .empty).putRow "scores" "1/1" score

def scoreRef : EntityRef := .existing ⟨[.int 1, .int 1]⟩

def folderRef (n : Int) : EntityRef := .existing ⟨[.int n]⟩

/-- Notes where the score was copied from, adds another score and deletes an empty folder. -/
def copyScore : Plan where
  commands := [.link ⟨"scores", "source", scoreRef, folderRef 2⟩,
    .create 0 "scores" (.ofList [("folder_id", .int 2), ("number", .int 1)]),
    .delete "folders" (folderRef 3)]

theorem filedAt_score (folderOptional : Bool) {key : String} {record : Record}
    (hrow : scoreTables.rowAt? "scores" key = some record) :
    (scores folderOptional).FiledAt key record := by
  by_cases hkey : key = "1/1"
  · subst hkey
    rw [scoreTables, Tables.rowAt?_putRow_self] at hrow
    cases hrow
    exact ⟨⟨[.int 1, .int 1]⟩, rfl, rfl⟩
  · rw [scoreTables, Tables.rowAt?_putRow_of_key_ne _ _ _ hkey] at hrow
    cases hrow

theorem scores_filed_of_copyScore : ∃ after report,
    Store.apply scoreSchema ⟨scoreTables, 0⟩ copyScore = .ok (after, report) ∧ report.writes = 3 ∧
      ∀ key record, after.tables.rowAt? "scores" key = some record → (scores false).FiledAt key record := by
  have hok : ((Store.apply scoreSchema ⟨scoreTables, 0⟩ copyScore).map fun done =>
      decide (done.2.writes = 3)) = .ok true := by decide +kernel
  obtain ⟨⟨after, report⟩, happly, hwrites⟩ := Except.map_eq_ok.1 hok
  have hscores : scoreSchema.resource? "scores" = some (scores false) := by decide +kernel
  have hlinks : ∀ change, .link change ∈ copyScore.commands →
      (scores false).ApartFrom scoreSchema change := by
    intro change hchange
    simp only [copyScore, List.mem_cons, Command.link.injEq, reduceCtorEq, List.not_mem_nil, or_false]
      at hchange
    subst hchange
    decide +kernel
  exact ⟨after, report, happly, of_decide_eq_true hwrites,
    Store.filedAt_of_apply (r := scores false) hscores (by decide +kernel) hlinks
      (fun _ _ => filedAt_score false) happly⟩

/-- Puts the score into another folder. -/
def moveScore : Plan := ⟨[.link ⟨"scores", "folder", scoreRef, folderRef 2⟩]⟩

/-- The key of the identity of the row under the key of the score, after a plan. -/
def scoreKeyAfter (schema : Schema) (r : Resource) (plan : Plan) : Except Error (Option (Option String)) :=
  (Store.apply schema ⟨scoreTables, 0⟩ plan).map fun done =>
    (done.1.tables.rowAt? "scores" "1/1").map fun record => (r.identityOf? record).map Identity.key

/-- A link gives the score the identity 2/1 and leaves it under the key 1/1, where an update of the same
column is refused. Where the folder may be missing, deleting it leaves a score without an identity. -/
theorem score_misfiled :
    (∀ key record, scoreTables.rowAt? "scores" key = some record → (scores false).FiledAt key record) ∧
      scoreKeyAfter scoreSchema (scores false) moveScore = .ok (some (some "2/1")) ∧
      scoreKeyAfter scoreSchema (scores false)
          ⟨[.update "scores" scoreRef (.ofList [("folder_id", .int 2)])]⟩
        = .error (.conflict (.identityChanges "scores" "1/1")) ∧
      scoreKeyAfter looseSchema (scores true) ⟨[.delete "folders" (folderRef 1)]⟩ = .ok (some none) :=
  ⟨fun _ _ => filedAt_score false, by decide +kernel, rfl, by decide +kernel⟩

end Music

end NestedResources
