import NestedResources.Proofs.Except
import NestedResources.Service.Resource

/-!
# Running requests

A request answers and leaves a desk. Steps run one after the other until one fails; what only reads
leaves the desk as it is. A commit files the whole outcome of its walk or nothing of it.
-/
namespace NestedResources

/-- The keys of the entities at the top. -/
def Outcome.keys (o : Outcome) : List String := o.identities.map Identity.key

namespace Serving

variable {α β : Type}

/-- What a request answers on a desk, and the desk it leaves. -/
def on (m : Serving α) (d : Desk) : Except Error α × Desk := m.run.run d

@[simp] theorem liftM_on (x : Except Error α) (d : Desk) : on (liftM x : Serving α) d = (x, d) := by
  cases x <;> rfl

@[simp] theorem tables_on (d : Desk) : on Service.tables d = (.ok d.store.tables, d) := rfl

/-- A step that fails ends a request; otherwise the next one goes on from the desk it leaves. -/
theorem bind_on (m : Serving α) (f : α → Serving β) (d : Desk) :
    on (m >>= f) d = match on m d with
      | (.ok a, d') => on (f a) d'
      | (.error e, d') => (.error e, d') := by
  change StateT.run (ExceptT.run (m >>= f)) d = _
  rw [ExceptT.run_bind, StateT.run_bind]
  unfold on
  generalize m.run.run d = answer
  obtain ⟨_ | _, _⟩ := answer <;> rfl

/-- A step that only reads is the first step of a computation. -/
theorem bind_on_of_reads {m : Serving α} {f : α → Serving β} {x : Except Error α}
    {y : α → Except Error β} {d : Desk} (hm : on m d = (x, d)) (hf : ∀ a, on (f a) d = (y a, d)) :
    on (m >>= f) d = (x >>= y, d) := by
  rw [bind_on, hm]
  cases x with
  | error e => rfl
  | ok a => exact hf a

/-- A step that leaves the desk as it is and fails with the errors that `fails` tells. -/
def Reads (m : Serving α) (d : Desk) (fails : Error → Prop) : Prop :=
  ∃ answer, on m d = (answer, d) ∧ ∀ e, answer = .error e ↔ fails e

namespace Reads

variable {m : Serving α} {d : Desk} {fails : Error → Prop}

theorem pure (a : α) : Reads (pure a) d fun _ => False :=
  ⟨.ok a, rfl, fun _ => by simp⟩

theorem bind_pure (h : Reads m d fails) (f : α → β) :
    Reads (m >>= fun a => Pure.pure (f a)) d fails := by
  obtain ⟨answer, hanswer, hfails⟩ := h
  refine ⟨answer.map f, ?_, fun e => ?_⟩
  · rw [bind_on, hanswer]
    cases answer <;> rfl
  · rw [← hfails e]
    cases answer <;> simp [Except.map]

theorem congr {fails' : Error → Prop} (h : Reads m d fails) (hfails : ∀ e, fails e ↔ fails' e) :
    Reads m d fails' := by
  obtain ⟨answer, hanswer, hanswers⟩ := h
  exact ⟨answer, hanswer, fun e => (hanswers e).trans (hfails e)⟩

/-- A step whose answer is known, and another one. -/
theorem bind {x : Except Error α} {f : α → Serving β} {γ : Type} {next : α → Except Error γ}
    (hm : on m d = (x, d)) (h : ∀ a, Reads (f a) d fun e => next a = .error e) :
    Reads (m >>= f) d fun e => x >>= next = .error e := by
  cases x with
  | error e =>
    refine ⟨.error e, ?_, fun e' => ?_⟩
    · rw [bind_on, hm]
    · simp [Bind.bind, Except.bind]
  | ok a =>
    obtain ⟨answer, hanswer, hfails⟩ := h a
    refine ⟨answer, ?_, hfails⟩
    rw [bind_on, hm]
    exact hanswer

/-- Steps that fail alike fail all together, unless there are none. -/
theorem mapM {f : α → Serving β} (h : ∀ a, Reads (f a) d fails) (items : List α) :
    Reads (items.mapM f) d fun e => items ≠ [] ∧ fails e := by
  induction items with
  | nil => exact (pure []).congr fun e => by simp
  | cons a items ih =>
    obtain ⟨answer, hanswer, hfails⟩ := h a
    rw [List.mapM_cons]
    cases answer with
    | error e =>
      refine ⟨.error e, ?_, fun e' => ?_⟩
      · rw [bind_on, hanswer]
      · simp [← hfails e']
    | ok b =>
      obtain ⟨rest, hrest, hfailsRest⟩ := ih.bind_pure (b :: ·)
      refine ⟨rest, ?_, fun e => ?_⟩
      · rw [bind_on, hanswer]
        exact hrest
      · simp [hfailsRest e, ← hfails e]

end Reads

/-- A walk that ends well and whose plan is applied changes the store; otherwise only the gates that
were consulted are noted. -/
theorem commit_on {registry : Registry} {ctx : Context} {walking : WalkSite → Walking (List EntityRef)}
    {d : Desk} {result : Except Error (List EntityRef)} {w : Walk}
    (h : (walking ⟨registry, ctx, d.store.tables⟩).run.run {} = (result, w)) :
    on (commit registry ctx walking) d =
      match result >>= fun roots => settle registry.schema d.store roots w with
      | .ok (store, o) => (.ok o, ⟨store, d.consulted ++ w.consulted⟩)
      | .error e => (.error e, ⟨d.store, d.consulted ++ w.consulted⟩) := by
  unfold commit
  rw [bind_on]
  change on _ d = _
  dsimp only
  rw [h]
  cases result with
  | error e => rfl
  | ok roots =>
    change on (liftM (settle registry.schema d.store roots w) >>= fun s => _) _ = _
    rw [bind_on, liftM_on]
    change _ = match settle registry.schema d.store roots w with
      | .ok (store, o) => _
      | .error e => _
    cases settle registry.schema d.store roots w <;> rfl

/-- A walk with issues answers them. -/
theorem commit_of_issues {registry : Registry} {ctx : Context}
    {walking : WalkSite → Walking (List EntityRef)} {d : Desk} {roots : List EntityRef} {w : Walk}
    (h : (walking ⟨registry, ctx, d.store.tables⟩).run.run {} = (.ok roots, w)) (hissues : w.issues ≠ []) :
    on (commit registry ctx walking) d =
      (.error (.unprocessable w.issues), ⟨d.store, d.consulted ++ w.consulted⟩) := by
  have hsettle : settle registry.schema d.store roots w = .error (.unprocessable w.issues) :=
    if_neg (List.isEmpty_iff.not.2 hissues)
  rw [commit_on h]
  dsimp only [bind, Except.bind]
  rw [hsettle]

/-- A plan without issues that can be applied is committed. -/
theorem commit_of_plan {registry : Registry} {ctx : Context}
    {walking : WalkSite → Walking (List EntityRef)} {d : Desk} {roots : List EntityRef} {w : Walk}
    {p : Progress} (h : (walking ⟨registry, ctx, d.store.tables⟩).run.run {} = (.ok roots, w))
    (hissues : w.issues = [])
    (hplan : w.plan.commands.foldlM (Progress.apply registry.schema) { store := d.store } = .ok p)
    (hfull : p.emptyColumn? registry.schema = none) :
    on (commit registry ctx walking) d =
      (.ok (.ofReport w.plan roots { created := p.created, writes := p.writes }),
        ⟨p.store, d.consulted ++ w.consulted⟩) := by
  have hsettle : settle registry.schema d.store roots w =
      .ok (p.store, .ofReport w.plan roots { created := p.created, writes := p.writes }) := by
    unfold settle Store.apply
    rw [if_pos (List.isEmpty_iff.2 hissues), hplan]
    dsimp only [bind, Except.bind]
    rw [hfull]
    rfl
  rw [commit_on h]
  dsimp only [bind, Except.bind]
  rw [hsettle]

/-- A commit that fails leaves the store as it was. -/
theorem store_of_commit_error {registry : Registry} {ctx : Context}
    {walking : WalkSite → Walking (List EntityRef)} {d after : Desk} {e : Error}
    (h : on (commit registry ctx walking) d = (.error e, after)) : after.store = d.store := by
  rcases hrun : (walking ⟨registry, ctx, d.store.tables⟩).run.run {} with ⟨result, w⟩
  rw [commit_on hrun] at h
  split at h
  · cases h
  · cases h
    rfl

/-- The walk of a commit that succeeds ended well. -/
theorem exists_walk_of_commit_ok {registry : Registry} {ctx : Context}
    {walking : WalkSite → Walking (List EntityRef)} {d after : Desk} {o : Outcome}
    (h : on (commit registry ctx walking) d = (.ok o, after)) :
    ∃ roots w, (walking ⟨registry, ctx, d.store.tables⟩).run.run {} = (.ok roots, w) := by
  rcases hrun : (walking ⟨registry, ctx, d.store.tables⟩).run.run {} with ⟨result, w⟩
  rw [commit_on hrun] at h
  cases result with
  | error e => cases h
  | ok roots => exact ⟨roots, w, rfl⟩

/-- The plan of a commit that succeeds was applied as a whole, what it wrote has its required columns, and
the outcome reports what it did. -/
theorem exists_report_of_commit_ok {registry : Registry} {ctx : Context}
    {walking : WalkSite → Walking (List EntityRef)} {d after : Desk} {o : Outcome}
    (h : on (commit registry ctx walking) d = (.ok o, after)) :
    ∃ roots w p, (walking ⟨registry, ctx, d.store.tables⟩).run.run {} = (.ok roots, w) ∧
      w.issues = [] ∧ w.plan.commands.foldlM (Progress.apply registry.schema) { store := d.store } = .ok p ∧
      p.emptyColumn? registry.schema = none ∧
      o = .ofReport w.plan roots { created := p.created, writes := p.writes } ∧ after.store = p.store := by
  obtain ⟨roots, w, hrun⟩ := exists_walk_of_commit_ok h
  rw [commit_on hrun] at h
  dsimp only [bind, Except.bind] at h
  cases hsettle : settle registry.schema d.store roots w with
  | error e =>
    rw [hsettle] at h
    cases h
  | ok settled =>
    obtain ⟨store, outcome⟩ := settled
    rw [hsettle] at h
    cases h
    unfold settle at hsettle
    split at hsettle
    · rename_i hissues
      obtain ⟨⟨store', report⟩, happly, hsettled⟩ := Except.bind_eq_ok.1 hsettle
      cases hsettled
      obtain ⟨p, hfold, hfinish⟩ := Except.bind_eq_ok.1 happly
      split at hfinish
      · cases hfinish
      · rename_i hfull
        cases hfinish
        exact ⟨roots, w, p, hrun, List.isEmpty_iff.1 hissues, hfold, hfull, rfl, rfl⟩
    · cases hsettle

theorem exists_full_progress_of_commit_ok {registry : Registry} {ctx : Context}
    {walking : WalkSite → Walking (List EntityRef)} {d after : Desk} {o : Outcome}
    (h : on (commit registry ctx walking) d = (.ok o, after)) :
    ∃ roots w p, (walking ⟨registry, ctx, d.store.tables⟩).run.run {} = (.ok roots, w) ∧
      w.issues = [] ∧ w.plan.commands.foldlM (Progress.apply registry.schema) { store := d.store } = .ok p ∧
      p.emptyColumn? registry.schema = none ∧ after.store = p.store := by
  obtain ⟨roots, w, p, hrun, hissues, hplan, hfull, -, hstore⟩ := exists_report_of_commit_ok h
  exact ⟨roots, w, p, hrun, hissues, hplan, hfull, hstore⟩

theorem exists_progress_of_commit_ok {registry : Registry} {ctx : Context}
    {walking : WalkSite → Walking (List EntityRef)} {d after : Desk} {o : Outcome}
    (h : on (commit registry ctx walking) d = (.ok o, after)) :
    ∃ roots w p, (walking ⟨registry, ctx, d.store.tables⟩).run.run {} = (.ok roots, w) ∧
      w.issues = [] ∧ w.plan.commands.foldlM (Progress.apply registry.schema) { store := d.store } = .ok p ∧
      after.store = p.store := by
  obtain ⟨roots, w, p, hrun, hissues, hplan, -, hstore⟩ := exists_full_progress_of_commit_ok h
  exact ⟨roots, w, p, hrun, hissues, hplan, hstore⟩

end Serving

end NestedResources
