import NestedResources.Proofs.Store.Refiled

/-!
# Required columns

A commit checks the rows that were written, at its end and nothing else. That is enough for all rows to
keep their required columns, over any run of plans: no edit of a command, and none of a deletion that
comes to rows of other resources, changes a row without telling so (`Progress.Recorded`).
-/
namespace NestedResources

/-- Every row of every resource has its required columns. -/
def Tables.Complete (t : Tables) (s : Schema) : Prop :=
  ∀ r ∈ s.resources, ∀ record ∈ t.rowsOf r.name, r.Complete record

instance (t : Tables) (s : Schema) : Decidable (t.Complete s) := inferInstanceAs (Decidable (∀ _ ∈ _, _))

namespace Progress

/-- Every row is as it was, or among those that were written. -/
def Recorded (t : Tables) (p : Progress) : Prop :=
  ∀ name key record, p.tables.rowAt? name key = some record →
    t.rowAt? name key = some record ∨ (name, key) ∈ p.touched

variable {s : Schema} {c : Command} {t : Tables} {start p q : Progress}

/-- No edit changes a row without telling so. -/
theorem Recorded.edit (h : Recorded t p) (hedit : Edit s start c p q) : Recorded t q := by
  intro name key record hrow
  rcases hedit.row_cases hrow with hold | ⟨htouched, -⟩
  · exact (h name key record hold).imp id fun hmem => hedit.touched hmem
  · exact .inr htouched

end Progress

namespace Store

variable {s : Schema} {store after : Store} {plan : Plan} {report : Report}

theorem complete_of_apply (h : store.tables.Complete s) (hok : store.apply s plan = .ok (after, report)) :
    after.tables.Complete s := by
  obtain ⟨p, hrun, hok⟩ := Except.bind_eq_ok.1 hok
  have hstart : Progress.Recorded store.tables { store } := fun _ _ _ hrow => .inl hrow
  have hrecorded := Progress.keeps_of_edits (P := Progress.Recorded store.tables)
    (fun _ _ _ _ hedit hp => hp.edit hedit) hrun hstart
  split at hok
  · cases hok
  · rename_i hnone
    cases hok
    intro r hr record hrecord
    obtain ⟨key, hrow⟩ := Tables.mem_rowsOf.1 hrecord
    rcases hrecorded r.name key record hrow with hold | htouched
    · exact h r hr record (Tables.mem_rowsOf.2 ⟨key, hold⟩)
    · exact Progress.complete_of_emptyColumn? hnone (Schema.mem_resources.1 hr) htouched hrow

/-- What a plan leaves: a plan that is rejected leaves the store as it was. -/
def commit (s : Schema) (store : Store) (plan : Plan) : Store :=
  match store.apply s plan with
  | .ok (after, _) => after
  | .error _ => store

/-- Rows keep their required columns over any run of plans, whichever of them are accepted. -/
theorem complete_of_commits (h : store.tables.Complete s) (plans : List Plan) :
    (plans.foldl (commit s) store).tables.Complete s := by
  induction plans generalizing store with
  | nil => exact h
  | cons plan plans ih =>
    refine ih ?_
    unfold commit
    split
    · rename_i hok
      exact complete_of_apply h hok
    · exact h

end Store

namespace Music

/-- The first folder cannot be deleted from under its score; the other plan is accepted. -/
theorem scores_complete_after_commits :
    scoreTables.Complete scoreSchema ∧
      Store.apply scoreSchema ⟨scoreTables, 0⟩ ⟨[.delete "folders" (folderRef 1)]⟩ =
        .error (.conflict (.columnEmpty "scores" "1/1" "folder_id")) ∧
      ([⟨[.delete "folders" (folderRef 1)]⟩, copyScore].foldl (Store.commit scoreSchema)
        ⟨scoreTables, 0⟩).tables.Complete scoreSchema ∧
      (([⟨[.delete "folders" (folderRef 1)]⟩, copyScore].foldl (Store.commit scoreSchema)
        ⟨scoreTables, 0⟩).tables.rowsOf "scores").length = 2 := by
  have hstart : scoreTables.Complete scoreSchema := by decide +kernel
  exact ⟨hstart, rfl, Store.complete_of_commits hstart _, by decide +kernel⟩

end Music

end NestedResources
