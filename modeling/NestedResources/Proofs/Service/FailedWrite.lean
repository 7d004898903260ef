import NestedResources.Proofs.Service.NonInterference
import NestedResources.Proofs.Write.Lookup

/-!
# Writes that fail

A write is prepared, committed, and read again for its answer. If it fails before it is committed, the
store is as it was. Reading again may fail too, and then what was committed stays:
`WriteRequest.AnswerFails` tells when.
-/
namespace NestedResources

/-- A write to a resource with its arguments. -/
inductive WriteRequest where
  | create (document : Json) (params : Params)
  | update (i : Identity) (document : Json) (mode : WriteMode) (params : Params)
  | updateField (i : Identity) (field : String) (value : Json)
  | patchCollection (items : Json) (params : Params)
  | createRelated (i : Identity) (relationship : String) (document : Json) (params : Params)
  | patchRelated (i : Identity) (relationship : String) (items : Json) (params : Params)
  | delete (target : DeleteTarget)

namespace WriteRequest

variable (svc : Service) (ctx : Context) (r : Resource)

/-- Carries out a write. -/
def perform : WriteRequest → Serving Json
  | create document params => svc.create ctx r document params
  | update i document mode params => svc.update ctx r i document mode params
  | updateField i field value => svc.updateField ctx r i field value
  | patchCollection items params => Json.arr <$> svc.patchCollection ctx r items params
  | createRelated i relationship document params => svc.createRelated ctx r i relationship document params
  | patchRelated i relationship items params =>
    Collection.toJson <$> svc.patchRelated ctx r i relationship items params
  | delete target => Deleted.toJson <$> svc.delete ctx r target

/-- The walk of a write, unless the write is refused before. -/
def prepare : WriteRequest → Except Error (WalkSite → Walking (List EntityRef))
  | create document params => do
    svc.ensureAllowed ctx r .post
    let _ ← svc.readQuery r params
    .ok (·.create r.name document)
  | update i document mode params => do
    svc.ensureAllowed ctx r (if mode = .replace then .put else .patch)
    let _ ← svc.readQuery r params
    .ok (·.update r.name i document mode)
  | updateField i field value => do
    svc.ensureAllowed ctx r .patch
    .ok (·.updateField r.name i field value)
  | patchCollection items params => do
    svc.ensureAllowed ctx r .patch
    let _ ← svc.readQuery r params
    .ok (·.patchCollection r.name items)
  | createRelated i relationship document params => do
    svc.ensureAllowed ctx r .patch
    let (rel, target) ← svc.related r relationship
    svc.ensureAllowed ctx target .post
    let _ ← svc.readQuery target params
    .ok (·.update r.name i (.obj [(rel.name, if rel.isMany then .arr [document] else document)]) .patch)
  | patchRelated i relationship items _ => do
    svc.ensureAllowed ctx r .patch
    if items.isArray then .ok (·.update r.name i (.obj [(relationship, items)]) .patch)
    else .error (.badRequest .patchNotAnArray)
  | delete target => do
    svc.ensureAllowed ctx r .delete
    match target with
    | .entity i => .ok (·.delete r.name i)
    | .query params => do
      let q ← svc.readQuery r params
      match q.filter with
      | none => .ok (·.deleteWhere r.name none)
      | some f => do
        let predicate ← svc.registry.compile ctx r f
        .ok (·.deleteWhere r.name (some predicate))

/-- What a write commits on a desk, and the desk after that. -/
def Commits (w : WriteRequest) (d : Desk) (o : Outcome) (after : Desk) : Prop :=
  ∃ walking, w.prepare svc ctx r = .ok walking ∧ (svc.commit ctx walking).on d = (.ok o, after)

/-- Whether the query of a write does not compile for a resource that is read again. -/
def Unreadable (target : Resource) (params : Params) (e : Error) : Prop :=
  ∃ q, svc.readQuery target params = .ok q ∧
    svc.reading ctx target { q with window := .unbounded } none = .error e

/-- Whether reading again fails once a write is committed. Deleting reads nothing, and a single field
is read without a query. Members that were patched are listed, and only then is the query read. -/
def AnswerFails (o : Outcome) (after : Desk) (e : Error) : WriteRequest → Prop
  | create _ params => o.identities ≠ [] ∧ Unreadable svc ctx r params e
  | update _ _ _ params => Unreadable svc ctx r params e
  | updateField _ _ _ => False
  | patchCollection _ params => o.identities ≠ [] ∧ Unreadable svc ctx r params e
  | createRelated _ relationship document params => ∃ rel target,
    svc.related r relationship = .ok (rel, target) ∧
      (document.object?.bind target.identityIn?).or (o.firstCreated? target.name) ≠ none ∧
      Unreadable svc ctx target params e
  | patchRelated i relationship _ params =>
    svc.listing ctx r i relationship params after.store.tables = .error e
  | delete _ => False

variable {svc ctx r}

theorem unreadable_iff {target : Resource} {params : Params} {q : Query} {e : Error}
    (hq : svc.readQuery target params = .ok q) :
    svc.reading ctx target { q with window := .unbounded } none = .error e ↔
      Unreadable svc ctx target params e := by
  constructor
  · exact fun h => ⟨q, hq, h⟩
  · rintro ⟨other, hother, h⟩
    cases hother.symm.trans hq
    exact h

/-! ## Stages of a write -/

/-- A request that is refused, or commits a walk and then only reads, which fails as `fails` says. -/
structure Staged {α : Type} (svc : Service) (ctx : Context)
    (prepared : Except Error (WalkSite → Walking (List EntityRef)))
    (fails : Outcome → Desk → Error → Prop) (m : Serving α) : Prop where
  refused : ∀ e d, prepared = .error e → m.on d = (.error e, d)
  failed : ∀ walking e d after, prepared = .ok walking →
    (svc.commit ctx walking).on d = (.error e, after) → m.on d = (.error e, after)
  committed : ∀ walking o d after, prepared = .ok walking →
    (svc.commit ctx walking).on d = (.ok o, after) →
      (m.on d).2 = after ∧ ∀ e, (m.on d).1 = .error e ↔ fails o after e

namespace Staged

variable {α β : Type} {prepared : Except Error (WalkSite → Walking (List EntityRef))}
  {fails : Outcome → Desk → Error → Prop}

/-- A check before the commit. -/
theorem check {x : Except Error α}
    {next : α → Except Error (WalkSite → Walking (List EntityRef))} {f : α → Serving β}
    (h : ∀ a, x = .ok a → Staged svc ctx (next a) fails (f a)) :
    Staged svc ctx (x >>= next) fails (liftM x >>= f) := by
  cases x with
  | error e =>
    refine ⟨fun e' d hprepared => ?_, fun _ _ _ _ hprepared => ?_, fun _ _ _ _ hprepared => ?_⟩
    · cases hprepared
      rw [Serving.bind_on, Serving.liftM_on]
    · cases hprepared
    · cases hprepared
  | ok a =>
    have hsame : (liftM (Except.ok a : Except Error α) >>= f : Serving β) = f a := pure_bind a f
    rw [hsame]
    exact h a rfl

theorem refuse (e : Error) : Staged svc ctx (.error e) fails (throw e : Serving α) :=
  ⟨fun _ _ h => by cases h; rfl, fun _ _ _ _ h => (by cases h), fun _ _ _ _ h => (by cases h)⟩

/-- The commit, and what is read after it. -/
theorem commit {walking : WalkSite → Walking (List EntityRef)} {f : Outcome → Serving α}
    (h : ∀ o d after, (svc.commit ctx walking).on d = (.ok o, after) →
      (f o).Reads after (fails o after)) :
    Staged svc ctx (.ok walking) fails (svc.commit ctx walking >>= f) := by
  refine ⟨fun _ _ hprepared => ?_, fun _ e d after hprepared hcommit => ?_,
    fun _ o d after hprepared hcommit => ?_⟩
  · cases hprepared
  · cases hprepared
    rw [Serving.bind_on, hcommit]
  · cases hprepared
    obtain ⟨answer, hanswer, hfails⟩ := h o d after hcommit
    rw [Serving.bind_on, hcommit]
    simp only [hanswer]
    exact ⟨trivial, hfails⟩

/-- What is made of the answer does not matter. -/
theorem map {m : Serving α} (h : Staged svc ctx prepared fails m) (f : α → β) :
    Staged svc ctx prepared fails (f <$> m) := by
  have hon : ∀ d, (f <$> m : Serving β).on d = ((m.on d).1.map f, (m.on d).2) := by
    intro d
    rw [map_eq_pure_bind, Serving.bind_on]
    obtain ⟨answer, after⟩ := m.on d
    cases answer <;> rfl
  refine ⟨fun e d hprepared => ?_, fun walking e d after hprepared hcommit => ?_,
    fun walking o d after hprepared hcommit => ?_⟩
  · rw [hon, h.refused e d hprepared]
    rfl
  · rw [hon, h.failed walking e d after hprepared hcommit]
    rfl
  · obtain ⟨hdesk, hfails⟩ := h.committed walking o d after hprepared hcommit
    rw [hon]
    refine ⟨hdesk, fun e => ?_⟩
    rw [← hfails e]
    cases (m.on d).1 <;> simp [Except.map]

/-- The three ways to fail, each with the desk that is left. -/
theorem eq_error_iff {m : Serving α} (h : Staged svc ctx prepared fails m) {e : Error}
    {d after : Desk} :
    m.on d = (.error e, after) ↔ (prepared = .error e ∧ after = d) ∨
      ∃ walking, prepared = .ok walking ∧ ((svc.commit ctx walking).on d = (.error e, after) ∨
        ∃ o, (svc.commit ctx walking).on d = (.ok o, after) ∧ fails o after e) := by
  cases hprepared : prepared with
  | error e' =>
    rw [h.refused e' d hprepared]
    simp [eq_comm]
  | ok walking =>
    rcases hcommit : (svc.commit ctx walking).on d with ⟨_ | o, left⟩
    · rw [h.failed walking _ d left hprepared hcommit]
      simp [hcommit]
    · obtain ⟨hdesk, hfails⟩ := h.committed walking o d left hprepared hcommit
      rcases hm : m.on d with ⟨answer, final⟩
      rw [hm] at hdesk hfails
      cases hdesk
      have hanswer : answer = .error e ↔ fails o final e := hfails e
      rw [Prod.mk.injEq, hanswer]
      constructor
      · rintro ⟨he, rfl⟩
        exact .inr ⟨walking, rfl, .inr ⟨o, hcommit, he⟩⟩
      · rintro (⟨herror, -⟩ | ⟨_, hwalking, herror | ⟨_, hok, he⟩⟩)
        · cases herror
        · cases hwalking
          cases hcommit.symm.trans herror
        · cases hwalking
          cases hcommit.symm.trans hok
          exact ⟨he, rfl⟩

end Staged

/-- The seven writes have the stages that `prepare` and `AnswerFails` tell. -/
theorem staged_perform (w : WriteRequest) :
    Staged svc ctx (w.prepare svc ctx r) (fun o after e => w.AnswerFails svc ctx r o after e)
      (w.perform svc ctx r) := by
  cases w with
  | create document params =>
    refine .check fun _ _ => .check fun q hq => .commit fun o d after _ => ?_
    have hrendered := Serving.Reads.mapM
      (fun i => svc.reads_reread ctx r { q with window := .unbounded } i after) o.identities
    exact (hrendered.bind_pure _).congr fun e => and_congr_right fun _ => unreadable_iff hq
  | update i document mode params =>
    refine .check fun _ _ => .check fun q hq => .commit fun o d after _ => ?_
    exact (svc.reads_reread ctx r _ i after).congr fun e => unreadable_iff hq
  | updateField i field value =>
    refine .check fun _ _ => .commit fun o d after hcommit => ?_
    obtain ⟨roots, walk, hwalk⟩ := Serving.exists_walk_of_commit_ok hcommit
    obtain ⟨target, p, htarget, hp⟩ := WalkSite.required_of_updateField hwalk
    obtain ⟨reading, hreading⟩ := Registry.exists_reading_window htarget hp .unbounded none
    have hempty : svc.reading ctx r {} none = .ok reading := hreading
    refine ((svc.reads_fetchOne ctx r i {} after).bind_pure _).congr fun e => ?_
    simp [hempty, AnswerFails]
  | patchCollection items params =>
    refine .map (.check fun _ _ => .check fun q hq => .commit fun o d after _ => ?_) _
    exact (Serving.Reads.mapM (fun i => svc.reads_reread ctx r _ i after) _).congr fun e =>
      and_congr_right fun _ => unreadable_iff hq
  | createRelated i relationship document params =>
    refine .check fun _ _ => .check fun (rel, target) hrelated => .check fun _ _ =>
      .check fun q hq => .commit fun o d after _ => ?_
    cases hchild : (document.object?.bind target.identityIn?).or (o.firstCreated? target.name) with
    | none =>
      refine (Serving.Reads.pure _).congr fun e => ?_
      simp only [AnswerFails, false_iff]
      rintro ⟨rel', target', hrelated', hne, -⟩
      cases hrelated.symm.trans hrelated'
      exact hne hchild
    | some child =>
      refine (svc.reads_reread ctx target _ child after).congr fun e => ?_
      rw [unreadable_iff hq]
      constructor
      · exact fun h => ⟨rel, target, hrelated, by simp [hchild], h⟩
      · rintro ⟨rel', target', hrelated', -, h⟩
        cases hrelated.symm.trans hrelated'
        exact h
  | patchRelated i relationship items params =>
    refine .map (.check fun _ _ => ?_) _
    by_cases harray : items.isArray = true
    · simp only [harray, if_true]
      refine .commit fun o d after hcommit => ?_
      obtain ⟨roots, walk, hwalk⟩ := Serving.exists_walk_of_commit_ok hcommit
      obtain ⟨found, p, hfound, hp⟩ := WalkSite.required_of_update hwalk
      exact svc.reads_listRelated ctx r hfound hp i relationship params after
    · simp only [harray]
      exact .refuse _
  | delete target =>
    refine .map (.check fun _ _ => ?_) _
    cases target with
    | entity i =>
      exact .commit fun o d after _ => (Serving.Reads.pure _).congr fun e => by simp [AnswerFails]
    | query params =>
      refine .check fun q _ => ?_
      cases q.filter with
      | none =>
        exact .commit fun o d after _ => (Serving.Reads.pure _).congr fun e => by simp [AnswerFails]
      | some f =>
        refine .check fun predicate _ => ?_
        exact .commit fun o d after _ => (Serving.Reads.pure _).congr fun e => by simp [AnswerFails]

/-- A write that fails leaves the tables as they were, exactly if what it commits before its answer
fails has changed nothing. Refusals, and walks and commits that fail, never change the tables. -/
theorem keeps_tables_iff (svc : Service) (ctx : Context) (r : Resource) (w : WriteRequest) (d : Desk) :
    (∀ e, ((w.perform svc ctx r).on d).1 = .error e →
        ((w.perform svc ctx r).on d).2.store.tables = d.store.tables) ↔
      ∀ o after e, w.Commits svc ctx r d o after → w.AnswerFails svc ctx r o after e →
        after.store.tables = d.store.tables := by
  have hstaged : Staged svc ctx _ _ (w.perform svc ctx r) := staged_perform w
  constructor
  · rintro h o after e ⟨walking, hprepare, hcommit⟩ hfails
    obtain ⟨hdesk, hanswer⟩ := hstaged.committed walking o d after hprepare hcommit
    rw [← hdesk]
    exact h e ((hanswer e).2 hfails)
  · intro h e he
    rcases hstaged.eq_error_iff.1 (Prod.ext he rfl) with
      ⟨-, hafter⟩ | ⟨walking, hprepare, hcommit | ⟨o, hcommit, hfails⟩⟩
    · exact congrArg (fun left => left.store.tables) hafter
    · exact congrArg Store.tables (Serving.store_of_commit_error hcommit)
    · exact h o _ e ⟨walking, hprepare, hcommit⟩ hfails

end WriteRequest

namespace Music

/-- Adds an employee to those who report to the second one; the answer is to have `abc` of them. -/
def addReport : WriteRequest :=
  .patchRelated ⟨[.int 2]⟩ "reports"
    (.arr [.obj [("first_name", .str "Laura"), ("last_name", .str "Callahan")]]) ⟨[("limit", "abc")]⟩

/-- The limit is no number, which is found out when the employee has been added. -/
theorem addReport_changes_tables :
    ¬∀ e, ((addReport.perform staffService (asUser 2) employees).on
          ⟨⟨staffTables employeeRows, 0⟩, []⟩).1 = .error e →
        ((addReport.perform staffService (asUser 2) employees).on
          ⟨⟨staffTables employeeRows, 0⟩, []⟩).2.store.tables = staffTables employeeRows := by
  have hfails : ((addReport.perform staffService (asUser 2) employees).on
      ⟨⟨staffTables employeeRows, 0⟩, []⟩).1.isOk = false := by decide +kernel
  have hsize : ((addReport.perform staffService (asUser 2) employees).on
      ⟨⟨staffTables employeeRows, 0⟩, []⟩).2.store.tables.size ≠ (staffTables employeeRows).size := by
    decide +kernel
  intro h
  obtain ⟨e, he⟩ := Except.exists_of_not_isOk hfails
  exact hsize (congrArg Tables.size (h e he))

end Music

end NestedResources
