import NestedResources.Proofs.Schema.Lookup
import NestedResources.Proofs.Store.Filed

/-!
# Members by a scan

The members of a relationship are found from the row of their parent: by columns, or by the links of an
association table. The condition of being a member finds the same rows in the same order among all rows
of the target (`Tables.Filed.members_eq_scan`).
-/
namespace NestedResources

/-- Maps in key order with the same entries are the same. -/
theorem Entries.Ordered.ext_mem {α : Type} {l m : List (String × α)} (hl : Ordered l) (hm : Ordered m)
    (h : ∀ e, e ∈ l ↔ e ∈ m) : l = m := by
  refine hl.ext hm fun key => Option.ext fun value => ?_
  rw [get?_eq_some_iff hl, get?_eq_some_iff hm, h]

/-- Looking up keys in their order is going through the entries that have one of these keys. -/
theorem Dict.filterMap_get?_eq {α : Type} (d : Dict α) {keys : List String} (h : keys.Pairwise (· < ·)) :
    keys.filterMap d.get? = (d.entries.filter (·.1 ∈ keys)).map (·.2) := by
  let found := keys.filterMap fun key => (d.get? key).map (key, ·)
  have hordered : Entries.Ordered found := by
    refine List.pairwise_filterMap.2 (h.imp fun {a b} hlt x hx y hy => ?_)
    obtain ⟨-, -, rfl⟩ := Option.map_eq_some_iff.1 hx
    obtain ⟨-, -, rfl⟩ := Option.map_eq_some_iff.1 hy
    exact hlt
  have hfound : found = d.entries.filter (·.1 ∈ keys) := by
    refine hordered.ext_mem (d.ordered.filter _) fun (key, value) => ?_
    simp only [found, List.mem_filterMap, List.mem_filter, decide_eq_true_eq, ← Dict.get?_eq_some_iff,
      Option.map_eq_some_iff, Prod.mk.injEq]
    constructor
    · rintro ⟨k, hk, v, hv, rfl, rfl⟩
      exact ⟨hv, hk⟩
    · exact fun ⟨hv, hk⟩ => ⟨key, hk, value, hv, rfl, rfl⟩
  rw [← hfound, List.map_filterMap]
  refine congrArg (List.filterMap · keys) (funext fun key => ?_)
  cases d.get? key <;> rfl

namespace Tables

variable {t : Tables} {s : Schema} {r target : Resource} {rel : Relationship} {record : Record} {i : Identity}

/-- A row of the target is found among members by its identity if it is one of them. -/
theorem Filed.isAmong_iff (h : t.Filed s) (htarget : s.target? rel = some target) {member : Record}
    (hmember : member ∈ t.rowsOf target.name) :
    Predicate.isAmong target member (t.members s r record rel) = true ↔
      member ∈ t.members s r record rel := by
  have hr := Schema.resource?_of_target? htarget
  obtain ⟨j, hj, hstored⟩ := h.row?_of_mem hr hmember
  simp only [Predicate.isAmong, hj, List.any_eq_true, Option.any_eq_true, decide_eq_true_eq]
  constructor
  · rintro ⟨other, hother, k, hk, hkey⟩
    obtain ⟨l, hl, hfound⟩ := h.row?_of_mem hr (mem_rowsOf_of_mem_members htarget hother)
    cases hk.symm.trans hl
    rw [row?, hkey] at hfound
    cases hstored.symm.trans hfound
    exact hother
  · exact fun hmem => ⟨member, hmem, j, hj, rfl⟩

/-- The keys of rows are told apart. -/
theorem Filed.key_inj (h : t.Filed s) {name key other : String} (hr : s.resource? name = some r)
    (hkey : t.rowAt? name key = some record) (hother : t.rowAt? name other = some record) : key = other := by
  obtain ⟨j, hj, rfl⟩ := h name key r record hr hkey
  obtain ⟨k, hk, rfl⟩ := h name other r record hr hother
  cases hj.symm.trans hk
  rfl

/-- The members of a relationship are the rows of its target among them, in the order of the table. -/
theorem Filed.members_eq_filter (h : t.Filed s) (htarget : s.target? rel = some target) {p : Record → Bool}
    (hp : ∀ member ∈ t.rowsOf target.name, p member = true ↔ member ∈ t.members s r record rel) :
    (t.rowsOf target.name).filter p = t.members s r record rel := by
  have hscan (test : Record → Bool)
      (hmembers : t.members s r record rel = (t.rowsOf target.name).filter test) :
      (t.rowsOf target.name).filter p = t.members s r record rel := by
    rw [hmembers] at hp ⊢
    refine List.filter_congr fun member hmember => ?_
    rw [Bool.eq_iff_iff, hp member hmember, List.mem_filter, and_iff_right hmember]
  have hcolumns (own other : List String)
      (hjoin : rel.join = .foreignKey own other ∨ rel.join = .reverse own other) :
      (t.rowsOf target.name).filter p = t.members s r record rel := by
    cases hwanted : record.values? own with
    | none => exact hscan (fun _ => false) (by rcases hjoin with h | h <;> simp [members, htarget, h, hwanted])
    | some wanted =>
      exact hscan (·.hasValues other wanted) (by rcases hjoin with h | h <;> simp [members, htarget, h, hwanted])
  cases hjoin : rel.join with
  | foreignKey own other => exact hcolumns own other (.inl hjoin)
  | reverse own other => exact hcolumns own other (.inr hjoin)
  | association name own other =>
    cases hidentity : r.identityOf? record with
    | none => exact hscan (fun _ => false) (by simp [members, htarget, hjoin, hidentity])
    | some identity =>
      let mine := (t.linksOf name).links.filter fun link => link.get? own = some identity.key
      let linked := Dict.ofList ((mine.filterMap (·.get? other)).map (·, ()))
      have hmembers : t.members s r record rel = linked.keys.filterMap (t.rowAt? target.name) := by
        simp only [members, htarget, hjoin, hidentity]
        rfl
      have hkeys : linked.keys.Pairwise (· < ·) := List.pairwise_map.2 linked.ordered
      have hfound := (t.table target.name).filterMap_get?_eq hkeys
      rw [hmembers] at hp ⊢
      refine Eq.trans ?_ hfound.symm
      rw [rowsOf, Dict.values, List.filter_map]
      refine congrArg (List.map _) (List.filter_congr fun entry he => ?_)
      obtain ⟨key, member⟩ := entry
      have hstored : t.rowAt? target.name key = some member := Dict.get?_eq_some_iff.2 he
      rw [Bool.eq_iff_iff, decide_eq_true_eq, Function.comp_apply, hp member (mem_rowsOf.2 ⟨key, hstored⟩),
        List.mem_filterMap]
      constructor
      · rintro ⟨other, hother, hfound⟩
        exact h.key_inj (Schema.resource?_of_target? htarget) hstored hfound ▸ hother
      · exact fun hkey => ⟨key, hkey, hstored⟩

/-- The rows that meet the condition of being a member are the members. -/
theorem Filed.members_eq_scan (h : t.Filed s) (hr : s.resource? r.name = some r)
    (hrel : r.relationship? rel.name = some rel) (htarget : s.target? rel = some target)
    (hrow : t.row? r.name i = some record) :
    (t.rowsOf target.name).filter ((Predicate.memberOf r.name i rel.name).holds t s target)
      = t.members s r record rel := by
  refine h.members_eq_filter htarget fun member hmember => ?_
  rw [Predicate.holds, hr]
  simp only [hrel, hrow]
  exact h.isAmong_iff htarget hmember

end Tables

end NestedResources
