import NestedResources.Proofs.Service.Serving
import NestedResources.Proofs.Store.Refiled
import NestedResources.Proofs.Write.Visits

/-!
# Resources that are only read

The gate of a resource that is only read refuses whatever it is asked, so no command is planned about its
entities or about a membership that they see. The store asks no gate: deletions come to rows of other
resources, and a membership without an inverse is decided by the other end alone. Rows of a resource that
is only read may therefore go with others or lose a reference, and a membership of another resource may be
kept in them. Nothing else about them ever changes (`Serving.rows_of_readOnly`).
-/
namespace NestedResources

theorem Schema.exists_inverse {s : Schema} {r target : Resource} {rel : Relationship} {name : String}
    (hrel : s.Declares r rel) (htarget : s.target? rel = some target) (hinverse : rel.inverse = some name) :
    ∃ inverse, target.relationship? name = some inverse := by
  obtain ⟨-, -, -, hrels⟩ := Schema.faultless_of_resource? hrel.1
  have hfault := hrels rel hrel.2
  have hget : s.table.get? rel.target = some target := htarget
  simp only [Resource.relationshipFault?, hget, Option.or_eq_none_iff, Resource.inverseFault?, hinverse,
    Option.bind_some] at hfault
  cases hfound : target.relationship? name with
  | none => simp [hfound] at hfault
  | some inverse => exact ⟨inverse, rfl⟩

/-! ## What the store may do to rows of another resource -/

/-- A foreign key of a relationship that has no inverse at the resource which holds the key. -/
def Schema.OneWay (s : Schema) (k : ForeignKey) : Prop :=
  ∃ owner rel, s.Declares owner rel ∧ rel.foreignKey? owner = some k ∧ owner.name ≠ k.holder ∧
    rel.inverse = none

/-- Columns that differ hold foreign keys. They are null now, unless the key is that of a relationship
which has no inverse at the resource. -/
def Schema.Rekeyed (s : Schema) (name : String) (old new : Record) : Prop :=
  ∀ column, new.get? column ≠ old.get? column → ∃ k, s.HasKey k ∧ k.holder = name ∧ column ∈ k.columns ∧
    (new.get? column = some .null ∨ s.OneWay k)

/-- Every row of a resource was there before, and differs in foreign keys only. -/
def Tables.Rekeyed (t : Tables) (s : Schema) (name : String) (after : Tables) : Prop :=
  ∀ key new, after.rowAt? name key = some new →
    ∃ old, t.rowAt? name key = some old ∧ s.Rekeyed name old new

namespace Command

/-- Commands that are not about entities of a resource, nor about memberships that have an inverse
there. -/
def Spares (s : Schema) (name : String) : Command → Prop
  | create _ resource _ => resource ≠ name
  | update resource _ _ => resource ≠ name
  | delete resource _ => resource ≠ name
  | link c => c.resource ≠ name ∧ ∀ owner rel, c.Through s owner rel → rel.target = name → rel.inverse = none
  | unlink c =>
    c.resource ≠ name ∧ ∀ owner rel, c.Through s owner rel → rel.target = name → rel.inverse = none

/-- Whether a command that starts from `start` comes to a row: deletions that take the entity along or
something that it refers to, and memberships that are kept in the row. -/
def Reaches (s : Schema) (start : Progress) (name key : String) (c : Command) : Prop :=
  c.Deletes s start name key ∨ ∃ k, s.HasKey k ∧ k.holder = name ∧
    (c.Links s start k key ∨ c.Unlinks s start k key ∨
      ∃ gone, c.Deletes s start k.owner gone ∧ start.tables.Refers s k key gone)

theorem Spares.not_writes {s : Schema} {name : String} {c : Command} (h : c.Spares s name) :
    ¬c.Writes name := by
  cases c with
  | create _ resource _ => exact h
  | update resource _ _ => exact h
  | _ => exact id

/-- A membership that is kept in a resource which is spared goes one way. -/
theorem Spares.oneWay {s : Schema} {name key : String} {c : Command} (h : c.Spares s name)
    {start : Progress} {k : ForeignKey} (hholder : k.holder = name) (hlinks : c.Links s start k key) :
    s.OneWay k := by
  cases c with
  | link change =>
    obtain ⟨owner, rel, -, hthrough, hkey, -, -⟩ := hlinks
    have howner : owner.name ≠ name := Schema.name_of_resource? hthrough.resource ▸ h.1
    refine ⟨owner, rel, hthrough.declares, hkey, hholder ▸ howner, h.2 owner rel hthrough ?_⟩
    unfold Relationship.foreignKey? at hkey
    split at hkey
    · cases hkey
      exact absurd hholder howner
    · cases hkey
      exact hholder
    · cases hkey
  | _ => cases hlinks

end Command

section

variable {s : Schema} {name : String} {t u v : Tables}

theorem Schema.Rekeyed.refl (record : Record) : s.Rekeyed name record record :=
  fun _ hdiffers => absurd rfl hdiffers

theorem Schema.Rekeyed.trans {a b c : Record} (h : s.Rekeyed name a b) (k : s.Rekeyed name b c) :
    s.Rekeyed name a c := by
  intro column hdiffers
  by_cases hlast : c.get? column = b.get? column
  · rw [hlast] at hdiffers ⊢
    exact h column hdiffers
  · exact k column hlast

theorem Tables.Rekeyed.refl (t : Tables) : t.Rekeyed s name t := fun _ new hnew => ⟨new, hnew, .refl new⟩

theorem Tables.Rekeyed.trans (h : t.Rekeyed s name u) (k : u.Rekeyed s name v) : t.Rekeyed s name v := by
  intro key new hnew
  obtain ⟨mid, hmid, hlast⟩ := k key new hnew
  obtain ⟨old, hold, hfirst⟩ := h key mid hmid
  exact ⟨old, hold, hfirst.trans hlast⟩

end

namespace Progress

variable {s : Schema} {name : String} {start p q : Progress} {c : Command}

theorem rowAt?_writeRow_of_ne (p : Progress) {other : String} (h : name ≠ other) (k : String)
    (record : Record) (key : String) :
    (p.writeRow other k record).tables.rowAt? name key = p.tables.rowAt? name key :=
  Tables.rowAt?_putRow_of_resource_ne _ _ _ h _

/-- No edit of a command that spares a resource does more to its rows than to drop them or to write
foreign keys. -/
theorem Edit.rekeyed (hedit : Edit s start c p q) (hc : c.Spares s name) : p.tables.Rekeyed s name q.tables := by
  intro key new hnew
  rcases hedit.row_cases hnew with hold | ⟨-, hputs⟩
  · exact ⟨new, hold, .refl new⟩
  cases hputs with
  | row _ _ hwrites _ => exact absurd hwrites hc.not_writes
  | @columns k old values hk hholder hold hvalues =>
    refine ⟨old, hold, fun column hdiffers => ⟨k, hk, hholder, ?_⟩⟩
    have hcolumn : column ∈ k.columns := by
      by_contra hother
      exact hdiffers (old.get?_assign_of_notMem hother values)
    refine ⟨hcolumn, ?_⟩
    rcases hvalues with hlinks | rfl
    · exact .inr (hc.oneWay hholder hlinks)
    · exact .inl ((old.get?_cleared k.columns column).trans (if_pos hcolumn))

theorem rowAt?_assign_of_ne (p : Progress) {name other key : String} {i : Identity}
    (h : ¬(name = other ∧ key = i.key)) (columns : List String) (values : List Json) :
    (p.assign other i columns values).tables.rowAt? name key = p.tables.rowAt? name key := by
  rw [rowAt?_assign, if_neg h]

/-- No edit of a command that does not reach a row does anything to it. -/
theorem Edit.rowAt?_eq (hedit : Edit s start c p q) (hwrites : ¬c.Writes name) {key : String}
    (hreaches : ¬c.Reaches s start name key) :
    q.tables.rowAt? name key = p.tables.rowAt? name key := by
  cases hedit with
  | aside hrows _ => exact rowAt?_of_rows_eq hrows name key
  | @write r k record _ hc _ =>
    have hne : name ≠ r.name := by
      rintro rfl
      exact hwrites hc
    exact rowAt?_writeRow_of_ne p hne k record key
  | @assign k i values hk hc =>
    refine rowAt?_assign_of_ne p ?_ k.columns values
    rintro ⟨rfl, rfl⟩
    exact hreaches (.inr ⟨k, hk, rfl, .inl hc⟩)
  | @clear k i hk hc =>
    refine rowAt?_assign_of_ne p ?_ k.columns _
    rintro ⟨rfl, rfl⟩
    exact hreaches (.inr ⟨k, hk, rfl, .inr hc⟩)
  | @drop _ other k hc htables _ =>
    rw [htables, Tables.rowAt?_dropRow, if_neg]
    rintro ⟨rfl, rfl⟩
    exact hreaches (.inl hc)

end Progress

/-! ## What is planned -/

theorem Registry.relationshipGate_of_none {g : Registry} {name : String}
    (hgate : g.gate name = .readOnly) (hnone : ∀ e ∈ g.relationshipGates, e.1.1 ≠ name) (rel : String) :
    (g.relationshipGateWithRef name rel).2 = .readOnly := by
  have hlast : lastOf? (name, rel) g.relationshipGates = none := by
    simp only [lastOf?, Option.map_eq_none_iff, List.find?_eq_none, List.mem_reverse, decide_eq_true_eq]
    rintro e he heq
    exact hnone e he (congrArg Prod.fst heq)
  rw [Registry.relationshipGateWithRef, hlast]
  exact hgate

namespace WalkSite

variable {site : WalkSite} {name : String} {log : List Consultation} {commands : List Command}

/-- What is asked of a gate that refuses everything is not allowed. -/
theorem not_allowed_of_readOnly {q : Question} (hgate : q.gate.2 = .readOnly) (ctx : Context) :
    ¬q.allowed ctx = true := by
  rw [Question.allowed, hgate]
  exact Bool.false_ne_true

section

variable (hgate : site.registry.gate name = .readOnly)
  (hnone : ∀ e ∈ site.registry.relationshipGates, e.1.1 ≠ name)
include hgate hnone

/-- Both ends of a membership are asked, so one that a resource sees from either end is refused. -/
theorem spares_of_membership {p : Parent} {target : Resource} {child : Option Record} {action : Action}
    {value : Option Json} {reference : EntityRef} (hp : site.Stands commands p)
    (htarget : site.registry.schema.target? p.relationship = some target)
    (hallowed : ∀ q ∈ site.registry.relationshipQuestions p target child action value,
      q.allowed site.ctx = true) :
    (linkChange p reference).resource ≠ name ∧ ∀ owner rel,
      (linkChange p reference).Through site.registry.schema owner rel → rel.target = name →
        rel.inverse = none := by
  refine ⟨fun hname => ?_, fun owner rel hthrough hname => ?_⟩
  · refine not_allowed_of_readOnly ?_ site.ctx (hallowed _ List.mem_cons_self)
    have hresource : p.resource.name = name := hname
    rw [hresource]
    exact Registry.relationshipGate_of_none hgate hnone _
  · cases hp.resource.symm.trans hthrough.resource
    cases hp.relationship.symm.trans hthrough.relationship
    cases hinverse : p.relationship.inverse with
    | none => rfl
    | some back =>
      obtain ⟨inverse, hback⟩ := Schema.exists_inverse hthrough.declares htarget hinverse
      have hfound : p.relationship.inverse.bind target.relationship? = some inverse := by
        rw [hinverse]
        exact hback
      refine absurd (hallowed _ (Registry.mem_relationshipQuestions_of_inverse hfound))
        (not_allowed_of_readOnly ?_ site.ctx)
      have htargetName : target.name = name := (Schema.name_of_resource? htarget).trans hname
      rw [htargetName]
      exact Registry.relationshipGate_of_none hgate hnone _

theorem Plans.spares {c : Command} {qs : List Question} (h : site.Plans log commands c qs)
    (hallowed : ∀ q ∈ qs, q.allowed site.ctx = true) : c.Spares site.registry.schema name := by
  have hrefused : ∀ resource change, ⟨site.registry.gateWithRef resource, change⟩ ∈ qs →
      resource ≠ name := by
    rintro resource change hq rfl
    exact not_allowed_of_readOnly hgate site.ctx (hallowed _ hq)
  cases h with
  | create => exact hrefused _ _ (List.mem_append_right _ List.mem_cons_self)
  | update => exact hrefused _ _ (List.mem_append_right _ List.mem_cons_self)
  | delete => exact hrefused _ _ List.mem_cons_self
  | link hp htarget => exact spares_of_membership hgate hnone hp htarget hallowed
  | unlink hp htarget => exact spares_of_membership hgate hnone hp htarget hallowed

theorem Authorised.spares (h : site.Authorised log commands) :
    ∀ c ∈ commands, c.Spares site.registry.schema name := by
  induction h with
  | none => exact fun _ hc => nomatch hc
  | asked _ _ ih => exact ih
  | planned _ hplans hallowed ih =>
    intro c hc
    rcases List.mem_append.1 hc with hc | hc
    · exact ih c hc
    · cases List.mem_singleton.1 hc
      exact hplans.spares hgate hnone hallowed

end

end WalkSite

/-! ## Runs of writes -/

namespace Serving

/-- The desk after a write. -/
def written (g : Registry) (d : Desk) (x : Context × WriteOp) : Desk :=
  (on (commit g x.1 x.2.walk) d).2

/-- The commands that a write commits, each with what it starts from. -/
def committed (g : Registry) (d : Desk) (x : Context × WriteOp) : List (Progress × Command) :=
  match (on (commit g x.1 x.2.walk) d).1 with
  | .ok _ => Progress.stages g.schema { store := d.store }
      ((x.2.walk ⟨g, x.1, d.store.tables⟩).run.run {}).2.plan.commands
  | .error _ => []

/-- The commands that writes commit one after the other. -/
def committedAll (g : Registry) (d : Desk) : List (Context × WriteOp) → List (Progress × Command)
  | [] => []
  | x :: xs => committed g d x ++ committedAll g (written g d x) xs

variable {g : Registry} {d : Desk} {name : String}

/-- A write leaves the store as it was, or as the commands leave it that it commits. -/
theorem written_cases (g : Registry) (d : Desk) (x : Context × WriteOp) :
    (committed g d x = [] ∧ (written g d x).store = d.store) ∨ ∃ roots w p,
      (x.2.walk ⟨g, x.1, d.store.tables⟩).run.run {} = (.ok roots, w) ∧
      committed g d x = Progress.stages g.schema { store := d.store } w.plan.commands ∧
      w.plan.commands.foldlM (Progress.apply g.schema) { store := d.store } = .ok p ∧
      (written g d x).store = p.store := by
  unfold written committed
  rcases hcommit : on (commit g x.1 x.2.walk) d with ⟨answer, after⟩
  cases answer with
  | error e => exact .inl ⟨rfl, store_of_commit_error hcommit⟩
  | ok o =>
    obtain ⟨roots, w, p, hrun, -, happly, hstore⟩ := exists_progress_of_commit_ok hcommit
    exact .inr ⟨roots, w, p, hrun, by rw [hrun], happly, hstore⟩

theorem spares_of_committed (hgate : g.gate name = .readOnly)
    (hnone : ∀ e ∈ g.relationshipGates, e.1.1 ≠ name) (d : Desk) (x : Context × WriteOp) :
    ∀ e ∈ committed g d x, e.2.Spares g.schema name := by
  rcases written_cases g d x with ⟨hcommitted, -⟩ | ⟨roots, w, p, hrun, hcommitted, -, -⟩
  · rw [hcommitted]
    exact fun _ he => nomatch he
  · rw [hcommitted]
    exact fun e he => (WriteOp.sound hrun).authorised.spares hgate hnone e.2 (Progress.mem_of_mem_stages he)

/-- What every edit of the commands keeps that a write commits is kept by the write. -/
theorem keeps_of_committed {P : Tables → Prop} {x : Context × WriteOp}
    (hedit : ∀ e ∈ committed g d x, ∀ before after, Progress.Edit g.schema e.1 e.2 before after →
      P before.tables → P after.tables) (hd : P d.store.tables) : P (written g d x).store.tables := by
  rcases written_cases g d x with ⟨-, hstore⟩ | ⟨roots, w, p, -, hcommitted, happly, hstore⟩
  · rwa [hstore]
  · rw [hstore]
    rw [hcommitted] at hedit
    exact Progress.keeps_of_edits (P := fun q => P q.tables) hedit happly hd

/-- Over any run of writes, no command is committed that is about entities of a resource that is only
read, or about a membership that has an inverse there. Its rows were all there before, and differ in
foreign keys only: references that were cleared, and memberships of other resources that go one way. A row
is the same as long as no deletion takes it along or something that it refers to, and no such membership
begins or ends that is kept in it. -/
theorem rows_of_readOnly (hgate : g.gate name = .readOnly)
    (hnone : ∀ e ∈ g.relationshipGates, e.1.1 ≠ name) (d : Desk) (writes : List (Context × WriteOp)) :
    (∀ e ∈ committedAll g d writes, e.2.Spares g.schema name) ∧
      d.store.tables.Rekeyed g.schema name (writes.foldl (written g) d).store.tables ∧
      ∀ key, (∀ e ∈ committedAll g d writes, ¬e.2.Reaches g.schema e.1 name key) →
        (writes.foldl (written g) d).store.tables.rowAt? name key = d.store.tables.rowAt? name key := by
  induction writes generalizing d with
  | nil => exact ⟨fun _ he => (nomatch he), .refl _, fun _ _ => rfl⟩
  | cons x writes ih =>
    obtain ⟨hspares, hrekeyed, hsame⟩ := ih (written g d x)
    have hfirst := spares_of_committed hgate hnone d x
    refine ⟨fun e he => (List.mem_append.1 he).elim (hfirst e) (hspares e), ?_, fun key hreaches => ?_⟩
    · refine Tables.Rekeyed.trans ?_ hrekeyed
      exact keeps_of_committed (P := d.store.tables.Rekeyed g.schema name)
        (fun e he _ _ hedit hp => hp.trans (hedit.rekeyed (hfirst e he))) (.refl _)
    · refine (hsame key fun e he => hreaches e (List.mem_append_right _ he)).trans ?_
      exact keeps_of_committed (P := fun t => t.rowAt? name key = d.store.tables.rowAt? name key)
        (fun e he _ _ hedit hp => (hedit.rowAt?_eq (hfirst e he).not_writes
          (hreaches e (List.mem_append_left _ he))).trans hp) rfl

end Serving

namespace Music

/-- Folders that delete their scores with them, and note which scores were copied from them. Neither
relationship has an inverse. -/
def binders : Resource :=
  { folders with
    relationships := [
      { name := "scores", target := "scores", cardinality := .oneToMany,
        join := .reverse ["folder_id"] ["folder_id"], cascade := .delete },
      { name := "copies", target := "scores", cardinality := .oneToMany,
        join := .reverse ["folder_id"] ["source_id"] }] }

/-- Scores may only be read. -/
def archive : Registry where
  schema := {
    table := .ofList [("folders", binders), ("scores", scores false)]
    named := by decide +kernel
    faultless := by decide +kernel }
  gates := [("scores", .readOnly)]
  relationshipGates := []

def archiveDesk : Desk := ⟨⟨scoreTables, 0⟩, []⟩

def addScore : Context × WriteOp :=
  (⟨.empty⟩, .create "scores" (.obj [("folder_id", .int 2), ("number", .int 1)]))

def addFolder : Context × WriteOp := (⟨.empty⟩, .create "folders" (.obj [("folder_id", .int 4)]))

/-- Creating a score is refused, and creating a folder leaves the scores alone. -/
theorem rows_of_readOnly_scores :
    Serving.committedAll archive archiveDesk [addScore, addFolder] =
        [({ store := ⟨scoreTables, 0⟩ }, .create 0 "folders" (.ofList [("folder_id", .int 4)]))] ∧
      ∀ key, ([addScore, addFolder].foldl (Serving.written archive) archiveDesk).store.tables.rowAt?
        "scores" key = scoreTables.rowAt? "scores" key := by
  have hcommitted : Serving.committedAll archive archiveDesk [addScore, addFolder] =
      [({ store := ⟨scoreTables, 0⟩ }, .create 0 "folders" (.ofList [("folder_id", .int 4)]))] := rfl
  have hgate : archive.gate "scores" = .readOnly := rfl
  obtain ⟨-, -, hsame⟩ := Serving.rows_of_readOnly hgate (fun _ he => nomatch he) archiveDesk
    [addScore, addFolder]
  refine ⟨hcommitted, fun key => hsame key fun e he hreaches => ?_⟩
  rw [hcommitted, List.mem_singleton] at he
  subst he
  rcases hreaches with hdeletes | ⟨k, -, -, hlinks | hunlinks | ⟨gone, hdeletes, -⟩⟩
  · exact hdeletes
  · exact hlinks
  · exact hunlinks
  · exact hdeletes

/-- Changes a membership of the score in a folder. -/
def patchFolder (folder : Int) (relationship : String) (op : List (String × Json)) :
    Context × WriteOp :=
  (⟨.empty⟩, .update "folders" ⟨[.int folder]⟩
    (.obj [(relationship, .arr [.obj ([("folder_id", .int 1), ("number", .int 1)] ++ op)])]) .patch)

def dropFolder (folder : Int) : Context × WriteOp := (⟨.empty⟩, .delete "folders" ⟨[.int folder]⟩)

/-- The keys of the scores after writes, with the folders that they were copied from. -/
def scoresAfter (writes : List (Context × WriteOp)) : List (String × Option String) :=
  ((writes.foldl (Serving.written archive) archiveDesk).store.tables.table "scores").entries.map fun e =>
    (e.1, (e.2.get? "source_id").map Json.compact)

/-- A folder notes that the score was copied from it, and is deleted. The folder of the score lets go of
it, or is deleted. -/
theorem readOnly_scores_change :
    archive.gate "scores" = .readOnly ∧ archive.relationshipGates = [] ∧
      scoresAfter [] = [("1/1", none)] ∧
      scoresAfter [patchFolder 2 "copies" []] = [("1/1", some "2")] ∧
      scoresAfter [patchFolder 2 "copies" [], dropFolder 2] = [("1/1", some "null")] ∧
      scoresAfter [patchFolder 1 "scores" [("$op", .str "remove")]] = [] ∧
      scoresAfter [dropFolder 1] = [] :=
  ⟨rfl, rfl, by decide +kernel, by decide +kernel, by decide +kernel, by decide +kernel, by decide +kernel⟩

end Music

end NestedResources
