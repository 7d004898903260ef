import NestedResources.Store.Fetch

/-!
# Conjunctions of predicates

Conjunctions are flattened where predicates are put together. A row satisfies the flat conjunction
iff it satisfies every part (`Predicate.holds_all`, `Predicate.passes_conjoin`).
-/
namespace NestedResources

namespace Predicate

variable (t : Tables) (schema : Schema) (r : Resource) (record : Record)

theorem holdsAll_eq_all (ps : List Predicate) :
    holdsAll t schema r record ps = ps.all (holds t schema r record) := by
  induction ps with
  | nil => rfl
  | cons p ps ih => simp [holdsAll, ih]

theorem all_conjuncts (p : Predicate) :
    p.conjuncts.all (holds t schema r record) = p.holds t schema r record := by
  cases p <;> simp [conjuncts, holds, holdsAll_eq_all]

/-- Conjunctions may be flattened. -/
theorem holds_all (ps : List Predicate) :
    (all ps).holds t schema r record = ps.all (holds t schema r record) := by
  have h : (ps.flatMap conjuncts).all (holds t schema r record) = ps.all (holds t schema r record) := by
    simp [List.all_flatMap, all_conjuncts]
  unfold all
  split
  · rename_i only heq
    simpa [heq] using h
  · simpa [holds, holdsAll_eq_all] using h

/-- Both parts of a conjunction have to pass; a missing part lets everything pass. -/
theorem passes_conjoin (left right : Option Predicate) :
    t.passes schema r (conjoin left right) record
      = (t.passes schema r left record && t.passes schema r right record) := by
  cases left <;> cases right <;> simp [conjoin, Tables.passes, holds_all]

/-- What is tested behind a crossing: the rest of the path and what the target requires. -/
theorem holds_conjoin_getD (inner : Predicate) (filter : Option Predicate) :
    ((conjoin (some inner) filter).getD (.and [])).holds t schema r record
      = (inner.holds t schema r record && t.passes schema r filter record) := by
  cases filter <;> simp [conjoin, Tables.passes, holds_all]

end Predicate

end NestedResources
