import NestedResources.Proofs.Service.FailedWrite
import NestedResources.Proofs.Write.Refusals

/-!
# The gates that an operation asks

Only gates refuse the method of an operation, those that it asks itself: the gate of its resource, and
the gate of the target where it works through a relationship. Each operation is `GuardedBy` a list of
them, but for a patch of members, which is committed before the members are listed.
-/
namespace NestedResources

namespace Serving

variable {α β : Type}

/-- Whether a request is refused for its method. -/
def Refuses (m : Serving α) (d : Desk) : Prop := ∃ e, (m.on d).1 = .error e ∧ e.refusesMethod = true

instance (m : Serving α) (d : Desk) : Decidable (m.Refuses d) :=
  match h : (m.on d).1 with
  | .ok _ => .isFalse (by simp [Refuses, h])
  | .error e => decidable_of_iff (e.refusesMethod = true) (by simp [Refuses, h])

/-- A step that is never refused for the method. -/
def Tolerates (m : Serving α) : Prop := ∀ d, ¬m.Refuses d

variable {m : Serving α} {f : α → Serving β} {d : Desk}

theorem refuses_bind : (m >>= f).Refuses d ↔
    m.Refuses d ∨ ∃ a after, m.on d = (.ok a, after) ∧ (f a).Refuses after := by
  unfold Refuses
  rw [bind_on]
  rcases m.on d with ⟨_ | a, after⟩ <;> simp

theorem refuses_liftM {x : Except Error α} :
    (liftM x : Serving α).Refuses d ↔ ∃ e, x = .error e ∧ e.refusesMethod = true := by
  simp [Refuses]

@[grind =] theorem tolerates_liftM {x : Except Error α} : (liftM x : Serving α).Tolerates ↔ Tolerant x := by
  simp [Tolerates, refuses_liftM, Tolerant]

@[grind .] theorem tolerates_pure (a : α) : (pure a : Serving α).Tolerates :=
  fun _ ⟨_, h, _⟩ => by cases h

@[simp] theorem throw_on (e : Error) (d : Desk) : (throw e : Serving α).on d = (.error e, d) := rfl

theorem refuses_throw {e : Error} : (throw e : Serving α).Refuses d ↔ e.refusesMethod = true := by
  simp [Refuses]

@[grind =] theorem tolerates_throw {e : Error} : (throw e : Serving α).Tolerates ↔ e.refusesMethod = false := by
  simp [Tolerates, refuses_throw]

@[grind ←] theorem Tolerates.bind (hm : m.Tolerates) (hf : ∀ a, (f a).Tolerates) : (m >>= f).Tolerates := by
  intro d h
  rcases refuses_bind.1 h with h | ⟨a, after, -, h⟩
  · exact hm d h
  · exact hf a after h

@[grind ←] theorem Tolerates.mapM {f : α → Serving β} (h : ∀ a, (f a).Tolerates) (items : List α) :
    (items.mapM f).Tolerates := by
  induction items with
  | nil => exact tolerates_pure []
  | cons a items ih =>
    rw [List.mapM_cons]
    exact (h a).bind fun _ => ih.bind fun _ => tolerates_pure _

/-- Steps after which nothing is refused are refused where they are refused themselves. -/
theorem refuses_bind_of_tolerates (hf : ∀ a, (f a).Tolerates) : (m >>= f).Refuses d ↔ m.Refuses d := by
  rw [refuses_bind, or_iff_left]
  rintro ⟨a, after, -, h⟩
  exact hf a after h

theorem refuses_bind_of_ok {a : α} {after : Desk} (hm : m.on d = (.ok a, after)) :
    (m >>= f).Refuses d ↔ (f a).Refuses after := by
  unfold Refuses
  rw [bind_on, hm]

theorem tolerates_tables : Service.tables.Tolerates := fun _ ⟨_, h, _⟩ => by cases h

theorem tolerates_commit {registry : Registry} {ctx : Context} {walking : WalkSite → Walking (List EntityRef)}
    (h : ∀ site, (walking site).Tolerates) : (commit registry ctx walking).Tolerates := by
  rintro d ⟨e, he, hrefuses⟩
  rcases hrun : (walking ⟨registry, ctx, d.store.tables⟩).run.run {} with ⟨result, w⟩
  have hresult : Tolerant result := by simpa [hrun] using h ⟨registry, ctx, d.store.tables⟩ {}
  have hboth := hresult.bind fun roots => tolerant_settle registry.schema d.store roots w
  rw [commit_on hrun] at he
  split at he
  · cases he
  · rename_i e' herror
    cases he
    exact absurd hrefuses (by simp [hboth _ herror])

end Serving

namespace Service

open Serving

variable (svc : Service) (ctx : Context) (r : Resource)

theorem tolerates_readQuery (params : Params) : (liftM (svc.readQuery r params) : Serving Query).Tolerates :=
  Serving.tolerates_liftM.2 (QuerySite.tolerant_read _ r params)

theorem tolerates_run {α : Type} (q : Query) (scope : Option Predicate)
    {run : Reading → Tables → Except Error α} (h : ∀ reading t, Tolerant (run reading t)) :
    Serving.Tolerates (do
      let reading ← svc.reading ctx r q scope
      run reading (← tables)) :=
  .bind (Serving.tolerates_liftM.2 (svc.registry.tolerant_reading ctx _ q scope)) fun reading =>
    .bind tolerates_tables fun t => Serving.tolerates_liftM.2 (h reading t)

theorem tolerates_rows (q : Query) (scope : Option Predicate) : (svc.rows ctx r q scope).Tolerates :=
  svc.tolerates_run ctx r q scope fun reading t => reading.tolerant_rows t _

theorem tolerates_first (q : Query) (scope : Option Predicate) : (svc.first ctx r q scope).Tolerates :=
  svc.tolerates_run ctx r q scope fun reading t => .bind (reading.tolerant_rows t _) fun _ => tolerant_pure _

theorem tolerates_collection (q : Query) (scope : Option Predicate) : (svc.collection ctx r q scope).Tolerates :=
  svc.tolerates_run ctx r q scope fun reading t => .bind (reading.tolerant_rows t _) fun _ =>
    .bind (t.tolerant_count _ _ _) fun _ => tolerant_pure _

theorem tolerates_ensureVisible (i : Identity) : (svc.ensureVisible ctx r i).Tolerates := by
  refine .bind (svc.tolerates_rows ctx r _ _) fun rows => ?_
  grind

theorem tolerates_reread (q : Query) (i : Identity) : (svc.reread ctx r q i).Tolerates :=
  .bind (svc.tolerates_first ctx r q _) fun _ => tolerates_pure _

/-! ## Gates that are asked -/

/-- A request is refused for its method exactly if one of these gates refuses one of these methods. -/
def GuardedBy {α : Type} (gates : List (Resource × Method)) (m : Serving α) : Prop :=
  ∀ d, m.Refuses d ↔ ∃ g ∈ gates, svc.isAllowed ctx g.1 g.2 = false

section

variable {svc ctx} {α β : Type} {gates : List (Resource × Method)} {m : Serving α}

theorem guardedBy_nil (h : m.Tolerates) : svc.GuardedBy ctx [] m := fun d => by simp [h d]

theorem guardedBy_cons {r : Resource} {method : Method} {f : Unit → Serving α}
    (h : svc.GuardedBy ctx gates (f ())) :
    svc.GuardedBy ctx ((r, method) :: gates) (liftM (svc.ensureAllowed ctx r method) >>= f) := by
  intro d
  rw [List.exists_mem_cons_iff]
  cases hallowed : svc.isAllowed ctx r method
  · have hdenied : svc.ensureAllowed ctx r method = .error (.denied r.name (.method method)) :=
      if_neg (by simp [hallowed])
    simp [refuses_bind, refuses_liftM, hdenied, Error.refusesMethod]
  · have hok : svc.ensureAllowed ctx r method = .ok () := if_pos hallowed
    rw [refuses_bind_of_ok (by rw [liftM_on, hok]), h d]
    simp

/-- A step that is known to end well asks nothing. -/
theorem GuardedBy.after {x : Except Error α} {a : α} {f : α → Serving β} (hx : x = .ok a)
    (h : svc.GuardedBy ctx gates (f a)) : svc.GuardedBy ctx gates (liftM x >>= f) := fun d => by
  rw [refuses_bind_of_ok (by rw [liftM_on, hx]), h d]

theorem GuardedBy.before {f : α → Serving β} (h : svc.GuardedBy ctx gates m) (hf : ∀ a, (f a).Tolerates) :
    svc.GuardedBy ctx gates (m >>= f) := fun d => by
  rw [refuses_bind_of_tolerates hf, h d]

theorem guardedBy_single {r : Resource} {method : Method} {f : Unit → Serving α} (h : (f ()).Tolerates) :
    svc.GuardedBy ctx [(r, method)] (liftM (svc.ensureAllowed ctx r method) >>= f) :=
  guardedBy_cons (guardedBy_nil h)

end

variable (r : Resource) (i : Identity) (params : Params)

theorem guardedBy_list : svc.GuardedBy ctx [(r, .get)] (svc.list ctx r params) :=
  guardedBy_single <| .bind (svc.tolerates_readQuery r params) fun q => svc.tolerates_collection ctx r q none

theorem guardedBy_getEntity : svc.GuardedBy ctx [(r, .get)] (svc.getEntity ctx r i params) := by
  refine guardedBy_single <| .bind (svc.tolerates_readQuery r params) fun q => ?_
  refine .bind (svc.tolerates_first ctx r _ _) fun entity => ?_
  grind

theorem guardedBy_getField (field : String) : svc.GuardedBy ctx [(r, .get)] (svc.getField ctx r i field) := by
  refine guardedBy_single ?_
  have := svc.tolerates_first ctx r {} (some (.identity r i))
  unfold fetchOne
  grind

theorem guardedBy_create (document : Json) :
    svc.GuardedBy ctx [(r, .post)] (svc.create ctx r document params) := by
  refine guardedBy_single <| .bind (svc.tolerates_readQuery r params) fun q => ?_
  refine .bind (tolerates_commit fun site => site.tolerates_create _ document) fun outcome => ?_
  exact .bind (.mapM (svc.tolerates_reread ctx r _) _) fun _ => tolerates_pure _

theorem guardedBy_update (document : Json) (mode : WriteMode) :
    svc.GuardedBy ctx [(r, if mode = .replace then .put else .patch)]
      (svc.update ctx r i document mode params) :=
  guardedBy_single <| .bind (svc.tolerates_readQuery r params) fun _ =>
    .bind (tolerates_commit fun site => site.tolerates_update _ i document mode) fun _ =>
      svc.tolerates_reread ctx r _ i

theorem guardedBy_updateField (field : String) (value : Json) :
    svc.GuardedBy ctx [(r, .patch)] (svc.updateField ctx r i field value) :=
  guardedBy_single <| .bind (tolerates_commit fun site => site.tolerates_updateField _ i field value) fun _ =>
    .bind (svc.tolerates_first ctx r {} _) fun _ => tolerates_pure _

theorem guardedBy_patchCollection (items : Json) :
    svc.GuardedBy ctx [(r, .patch)] (svc.patchCollection ctx r items params) :=
  guardedBy_single <| .bind (svc.tolerates_readQuery r params) fun _ =>
    .bind (tolerates_commit fun site => site.tolerates_patchCollection _ items) fun _ =>
      .mapM (svc.tolerates_reread ctx r _) _

theorem guardedBy_delete (target : DeleteTarget) :
    svc.GuardedBy ctx [(r, .delete)] (svc.delete ctx r target) := by
  refine guardedBy_single ?_
  cases target with
  | entity i => exact .bind (tolerates_commit fun site => site.tolerates_delete _ i) fun _ => tolerates_pure _
  | query params =>
    have hcommit : ∀ predicate, (svc.commit ctx (·.deleteWhere r.name predicate)).Tolerates := fun _ =>
      tolerates_commit fun site => site.tolerates_deleteWhere _ _
    refine .bind (svc.tolerates_readQuery r params) fun q => ?_
    dsimp only
    split
    · exact .bind (tolerates_pure _) fun _ => .bind (hcommit _) fun _ => tolerates_pure _
    · exact .bind (Serving.tolerates_liftM.2 (svc.registry.tolerant_compile ctx r _)) fun _ =>
        .bind (tolerates_pure _) fun _ => .bind (hcommit _) fun _ => tolerates_pure _

section

variable {svc r} {relationship : String} {rel : Relationship} {target : Resource}
  (hrelated : svc.related r relationship = .ok (rel, target))

include hrelated

theorem guardedBy_listRelated :
    svc.GuardedBy ctx [(r, .get), (target, .get)] (svc.listRelated ctx r i relationship params) :=
  guardedBy_cons <| .after hrelated <| guardedBy_single <| .bind (svc.tolerates_ensureVisible ctx r i) fun _ =>
    .bind (svc.tolerates_readQuery target params) fun q => svc.tolerates_collection ctx target q _

theorem guardedBy_getRelatedOne :
    svc.GuardedBy ctx [(r, .get), (target, .get)] (svc.getRelatedOne ctx r i relationship params) :=
  guardedBy_cons <| .after hrelated <| guardedBy_single <| .bind (svc.tolerates_ensureVisible ctx r i) fun _ =>
    .bind (svc.tolerates_readQuery target params) fun _ =>
      .bind (svc.tolerates_first ctx target _ _) fun _ => tolerates_pure _

theorem guardedBy_createRelated (document : Json) :
    svc.GuardedBy ctx [(r, .patch), (target, .post)]
      (svc.createRelated ctx r i relationship document params) := by
  refine guardedBy_cons <| .after hrelated <| guardedBy_single <|
    .bind (svc.tolerates_readQuery target params) fun q =>
      .bind (tolerates_commit fun site => site.tolerates_update _ i _ _) fun outcome => ?_
  have := svc.tolerates_reread ctx target { q with window := .unbounded }
  grind

/-- The members are listed when they have been patched. -/
theorem refuses_patchRelated (items : Json) {d : Desk} :
    (svc.patchRelated ctx r i relationship items params).Refuses d ↔
      svc.isAllowed ctx r .patch = false ∨
        (∃ o after, (WriteRequest.patchRelated i relationship items params).Commits svc ctx r d o after) ∧
          ∃ g ∈ [(r, Method.get), (target, .get)], svc.isAllowed ctx g.1 g.2 = false := by
  unfold patchRelated WriteRequest.Commits
  cases hallowed : svc.isAllowed ctx r .patch
  · have hdenied : svc.ensureAllowed ctx r .patch = .error (.denied r.name (.method .patch)) :=
      if_neg (by simp [hallowed])
    simp [refuses_bind, refuses_liftM, hdenied, Error.refusesMethod]
  · have hok : svc.ensureAllowed ctx r .patch = .ok () := if_pos hallowed
    have hprepare : (WriteRequest.patchRelated i relationship items params).prepare svc ctx r =
        if items.isArray then .ok (·.update r.name i (.obj [(relationship, items)]) .patch)
        else .error (.badRequest .patchNotAnArray) := by
      unfold WriteRequest.prepare
      rw [hok]
      rfl
    rw [refuses_bind_of_ok (by rw [liftM_on, hok]), hprepare]
    cases items.isArray
    · simp [refuses_throw, Error.refusesMethod]
    · have hcommit : (svc.commit ctx (·.update r.name i (.obj [(relationship, items)]) .patch)).Tolerates :=
        tolerates_commit fun site => site.tolerates_update _ i _ _
      have hlist : ∀ after, (svc.listRelated ctx r i relationship params).Refuses after ↔ _ :=
        guardedBy_listRelated ctx i params hrelated
      simp [refuses_bind, hcommit d, hlist]

end

end Service

end NestedResources
