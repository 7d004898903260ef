import NestedResources.Proofs.Except
import NestedResources.Proofs.Schema.Lookup
import NestedResources.Store.Commit

/-!
# Why commits fail

A command fails for few reasons, and two of them are faults of the plan: a reference to a slot that is not filled
yet, and a slot that is not the next one (`Progress.fails_of_apply`). A plan fails for one of its commands, after
those before it went well, or for a column that is empty at the end (`Store.apply_eq_error`).
-/
namespace NestedResources

/-- The entities that a command refers to. -/
def Command.references : Command → List EntityRef
  | .create _ _ _ => []
  | .update _ target _ | .delete _ target => [target]
  | .link c | .unlink c => [c.parent, c.child]

namespace Progress

/-- The reasons for which a command fails. -/
inductive Fails (p : Progress) (c : Command) : Error → Prop
  | notFound (resource what : String) : Fails p c (.notFound resource what)
  | conflict (fault : ConflictFault) : Fails p c (.conflict fault)
  | unknownRelationship (resource relationship : String) :
      Fails p c (.store (.unknownRelationship resource relationship))
  | withoutIdentity (resource : String) : Fails p c (.store (.rowWithoutIdentity resource))
  | unresolved {slot : Nat} (href : .pending slot ∈ c.references) (hopen : p.created[slot]? = none) :
      Fails p c (.store (.pendingUnknown slot))
  | outOfOrder {slot : Nat} {name : String} {values : Record} (hc : c = .create slot name values)
      (hslot : slot ≠ p.created.length) : Fails p c (.store (.slotOutOfOrder slot))

variable {schema : Schema} {p : Progress} {c : Command} {e : Error}

theorem fails_of_require {name : String} (h : schema.require name = .error e) : p.Fails c e := by
  unfold Schema.require at h
  split at h
  · cases h
  · cases h
    exact .notFound ..

theorem fails_of_requireRelationship {r : Resource} {name : String} (h : r.requireRelationship name = .error e) :
    p.Fails c e := by
  unfold Resource.requireRelationship at h
  split at h
  · cases h
  · cases h
    exact .unknownRelationship ..

theorem fails_of_resolve {ref : EntityRef} (href : ref ∈ c.references) (h : p.resolve ref = .error e) :
    p.Fails c e := by
  unfold resolve at h
  split at h
  · cases h
  · split at h
    · cases h
    · cases h
      exact .unresolved href ‹_›

theorem fails_of_fillIdentity {r : Resource} {fields : List Field} {q : Progress} {record : Record}
    (h : fillIdentity r fields q record = .error e) : p.Fails c e := by
  induction fields generalizing q record with
  | nil => cases h
  | cons f fields ih =>
    rw [fillIdentity] at h
    split at h
    · exact ih h
    · split at h
      · cases h
        exact .conflict _
      · split at h
        · exact ih h
        · exact ih h

/-- The ends of a change of a membership are all that is looked up before the change. -/
theorem fails_of_ends {α : Type} {change : LinkChange} {next : Resource → Relationship → Resource → Identity →
      Identity → Except Error α} (hreferences : c.references = [change.parent, change.child])
    (hnext : ∀ r rel target parent child, next r rel target parent child = .error e → p.Fails c e)
    (h : (do
      let r ← schema.require change.resource
      let rel ← r.requireRelationship change.relationship
      let target ← schema.require rel.target
      let parent ← p.resolve change.parent
      let child ← p.resolve change.child
      next r rel target parent child) = .error e) : p.Fails c e := by
  rcases Except.bind_eq_error.1 h with h | ⟨r, -, h⟩
  · exact fails_of_require h
  rcases Except.bind_eq_error.1 h with h | ⟨rel, -, h⟩
  · exact fails_of_requireRelationship h
  rcases Except.bind_eq_error.1 h with h | ⟨target, -, h⟩
  · exact fails_of_require h
  rcases Except.bind_eq_error.1 h with h | ⟨parent, -, h⟩
  · exact fails_of_resolve (by simp [hreferences]) h
  rcases Except.bind_eq_error.1 h with h | ⟨child, -, h⟩
  · exact fails_of_resolve (by simp [hreferences]) h
  exact hnext r rel target parent child h

theorem fails_of_createRow {slot : Nat} {name : String} {values : Record}
    (h : p.createRow schema slot name values = .error e) : p.Fails (.create slot name values) e := by
  rcases Except.bind_eq_error.1 h with h | ⟨r, -, h⟩
  · exact fails_of_require h
  · split at h
    · cases h
      exact .outOfOrder rfl ‹_›
    · rcases Except.bind_eq_error.1 h with h | ⟨⟨q, record⟩, -, h⟩
      · exact fails_of_fillIdentity h
      · dsimp only at h
        split at h
        · cases h
          exact .withoutIdentity _
        · split at h
          · cases h
            exact .conflict _
          · cases h

theorem fails_of_updateRow {name : String} {target : EntityRef} {values : Record}
    (h : p.updateRow schema name target values = .error e) : p.Fails (.update name target values) e := by
  rcases Except.bind_eq_error.1 h with h | ⟨r, -, h⟩
  · exact fails_of_require h
  rcases Except.bind_eq_error.1 h with h | ⟨i, -, h⟩
  · exact fails_of_resolve List.mem_cons_self h
  split at h
  · cases h
    exact .notFound ..
  · dsimp only at h
    split at h
    · cases h
    · split at h
      · cases h
        exact .conflict _
      · cases h

theorem fails_of_deleteRow {name : String} {target : EntityRef}
    (h : p.deleteRow schema name target = .error e) : p.Fails (.delete name target) e := by
  rcases Except.bind_eq_error.1 h with h | ⟨r, -, h⟩
  · exact fails_of_require h
  rcases Except.bind_eq_error.1 h with h | ⟨i, -, h⟩
  · exact fails_of_resolve List.mem_cons_self h
  split at h
  · cases h
    exact .notFound ..
  · cases h

theorem fails_of_addMember {change : LinkChange} (h : p.addMember schema change = .error e) :
    p.Fails (.link change) e := by
  refine fails_of_ends rfl (fun r rel target parent child h => ?_) h
  split at h
  · cases h
    exact .notFound ..
  · cases h
    exact .notFound ..
  · split at h
    · split at h
      · cases h
      · cases h
        exact .conflict _
    · split at h
      · cases h
      · cases h
        exact .conflict _
    · dsimp only at h
      split at h <;> cases h

theorem fails_of_dropMember {change : LinkChange} (h : p.dropMember schema change = .error e) :
    p.Fails (.unlink change) e := by
  refine fails_of_ends rfl (fun r rel target parent child h => ?_) h
  split at h
  · cases h
    exact .notFound ..
  · dsimp only at h
    split at h <;> cases h

theorem fails_of_apply (h : p.apply schema c = .error e) : p.Fails c e := by
  cases c with
  | create slot name values => exact fails_of_createRow h
  | update name target values => exact fails_of_updateRow h
  | delete name target => exact fails_of_deleteRow h
  | link change => exact fails_of_addMember h
  | unlink change => exact fails_of_dropMember h

end Progress

theorem Store.apply_eq_error {schema : Schema} {s : Store} {plan : Plan} {e : Error}
    (h : s.apply schema plan = .error e) : (∃ fault, e = .conflict fault) ∨
      ∃ before c rest p, plan.commands = before ++ c :: rest ∧
        before.foldlM (Progress.apply schema) ({ store := s } : Progress) = .ok p ∧ p.Fails c e := by
  rcases Except.bind_eq_error.1 h with h | ⟨p, -, h⟩
  · obtain ⟨before, c, rest, p, hsplit, hbefore, hfails⟩ := Except.foldlM_eq_error h
    exact .inr ⟨before, c, rest, p, hsplit, hbefore, Progress.fails_of_apply hfails⟩
  · split at h
    · cases h
      exact .inl ⟨_, rfl⟩
    · cases h

end NestedResources
