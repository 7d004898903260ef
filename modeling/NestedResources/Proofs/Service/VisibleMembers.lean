import NestedResources.Proofs.Service.Reads
import NestedResources.Proofs.Store.Least

/-!
# Visible entities and members

An entity is visible if it is stored and passes the filter that its gate requires. While a path is
followed, entities and members are looked up by four queries: they find what is visible, and of the
members of a to-one relationship the one with the least identity.
-/
namespace NestedResources

/-- Every row of a resource is filed under its own identity, which has values of the right types. -/
def Tables.FiledFitting (t : Tables) (r : Resource) : Prop :=
  ∀ key record, t.rowAt? r.name key = some record →
    ∃ i, r.identityOf? record = some i ∧ i.key = key ∧ r.Fits i

namespace Service

variable (svc : Service) (ctx : Context) (t : Tables)

/-- A row that is stored and that the gate of its resource shows. -/
def Shows (r : Resource) (record : Record) : Prop :=
  record ∈ t.rowsOf r.name ∧
    ∃ p, svc.registry.required ctx r = .ok p ∧ t.passes svc.schema r p record = true

def Visible (r : Resource) (i : Identity) : Prop :=
  ∃ record, svc.Shows ctx t r record ∧ r.identityOf? record = some i

/-- A visible entity among the members of a relationship of an entity. -/
def VisibleMember (r : Resource) (i : Identity) (rel : Relationship) (target : Resource) (child : Identity) :
    Prop :=
  ∃ row record, row ∈ t.rowsOf r.name ∧ r.identityOf? row = some i ∧ svc.Shows ctx t target record ∧
    target.identityOf? record = some child ∧ record ∈ t.members svc.schema r row rel

/-- The visible member with the least identity; none if there is no visible member. -/
def LeastMember (r : Resource) (i : Identity) (rel : Relationship) (target : Resource) : Option Identity → Prop
  | some child => svc.VisibleMember ctx t r i rel target child ∧
      ∀ other, svc.VisibleMember ctx t r i rel target other → target.order child other ≠ .gt
  | none => ∀ other, ¬svc.VisibleMember ctx t r i rel target other

/-- Gates whose filters compile, and rows under their own identities, which are told apart by their
values. -/
structure Settled : Prop where
  compiles : ∀ name r, svc.schema.resource? name = some r → ∃ p, svc.registry.required ctx r = .ok p
  exact : ∀ name r, svc.schema.resource? name = some r → ∀ f ∈ r.identityFields, f.type.isExact = true
  filed : ∀ name r, svc.schema.resource? name = some r → t.FiledFitting r

variable {svc ctx t} {r target : Resource} {i child : Identity} {rel : Relationship} {name : String}

namespace Settled

variable (h : svc.Settled ctx t)

include h

/-- A row is filed under its identity. -/
theorem row?_of_mem (hr : svc.schema.resource? name = some r) {record : Record}
    (hrecord : record ∈ t.rowsOf r.name) :
    ∃ i, r.identityOf? record = some i ∧ r.Fits i ∧ t.row? r.name i = some record := by
  obtain ⟨key, hkey⟩ := Tables.mem_rowsOf.1 hrecord
  obtain ⟨i, hi, rfl, hfits⟩ := h.filed name r hr key record hkey
  exact ⟨i, hi, hfits, hkey⟩

/-- Rows with one identity are one row. -/
theorem row?_of_identityOf? (hr : svc.schema.resource? name = some r) {record : Record}
    (hrecord : record ∈ t.rowsOf r.name) (hi : r.identityOf? record = some i) :
    t.row? r.name i = some record := by
  obtain ⟨j, hj, -, hrow⟩ := h.row?_of_mem hr hrecord
  cases hj.symm.trans hi
  exact hrow

/-- The condition on identity columns is met by the row of the identity. -/
theorem passes_identity_iff (hr : svc.schema.resource? name = some r) (hi : r.Fits i) {record : Record}
    (hrecord : record ∈ t.rowsOf r.name) :
    t.passes svc.schema r (some (.identity r i)) record = true ↔ r.identityOf? record = some i := by
  obtain ⟨j, hj, hfits, -⟩ := h.row?_of_mem hr hrecord
  rw [Predicate.passes_identity_iff (h.exact name r hr) hj hfits.isExact hi.isExact hi.length_eq.symm, hj,
    Option.some.injEq]

/-- A row is found among the members if it is one of them. -/
theorem isAmong_iff (htarget : svc.schema.target? rel = some target) {row record : Record}
    (hrecord : record ∈ t.rowsOf target.name) :
    Predicate.isAmong target record (t.members svc.schema r row rel) = true ↔
      record ∈ t.members svc.schema r row rel := by
  obtain ⟨j, hj, -, hstored⟩ := h.row?_of_mem htarget hrecord
  simp only [Predicate.isAmong, hj, List.any_eq_true, Option.any_eq_true, decide_eq_true_eq]
  constructor
  · rintro ⟨member, hmember, k, hk, hkey⟩
    have hsame := h.row?_of_identityOf? htarget (Tables.mem_rowsOf_of_mem_members htarget hmember) hk
    rw [Tables.row?, hkey] at hsame
    cases hstored.symm.trans hsame
    exact hmember
  · exact fun hmember => ⟨record, hmember, j, hj, rfl⟩

/-- The rows that pass the condition of being a member of an entity are its members. -/
theorem passes_membership_iff (hr : svc.schema.resource? r.name = some r)
    (hrel : r.relationship? rel.name = some rel) (htarget : svc.schema.target? rel = some target)
    {row record : Record} (hrow : row ∈ t.rowsOf r.name) (hi : r.identityOf? row = some i)
    (hrecord : record ∈ t.rowsOf target.name) :
    (membership r i rel).holds t svc.schema target record = true ↔
      record ∈ t.members svc.schema r row rel := by
  rw [← h.isAmong_iff htarget hrecord, membership, Predicate.holds, hr]
  simp only [hrel, h.row?_of_identityOf? hr hrow hi]

/-- The rows that a scope leaves visible, in the order of their identities. -/
theorem rows_on_window {d : Desk} (hd : d.store.tables = t) (hr : svc.schema.resource? r.name = some r)
    (window : Window) (scope : Predicate) :
    ∃ rows records, (svc.rows ctx r { window } (some scope)).on d = (.ok rows, d) ∧
      rows.map Row.record = window.apply (Sorting.sort (Record.compare r []) records) ∧
      ∀ record, record ∈ records ↔ svc.Shows ctx t r record ∧ scope.holds t svc.schema r record = true := by
  obtain ⟨p, hp⟩ := h.compiles _ r hr
  obtain ⟨reading, rows, hreading, hrows, hrecords⟩ := Registry.exists_rows_window hr hp window (some scope) t
  refine ⟨rows, _, ?_, hrecords, fun record => ?_⟩
  · rw [rows_on, hd]
    exact Prod.ext (Except.bind_eq_ok.2 ⟨reading, hreading, hrows⟩) rfl
  · rw [List.mem_filter, Bool.and_eq_true]
    constructor
    · exact fun ⟨hmem, hpass, hscope⟩ => ⟨⟨hmem, p, hp, hpass⟩, hscope⟩
    · rintro ⟨⟨hmem, q, hq, hpass⟩, hscope⟩
      cases hp.symm.trans hq
      exact ⟨hmem, hpass, hscope⟩

theorem isVisible_iff (hr : svc.schema.resource? r.name = some r) (hi : r.Fits i) :
    svc.isVisible ctx r i t = true ↔ svc.Visible ctx t r i := by
  obtain ⟨p, hp⟩ := h.compiles _ r hr
  simp only [isVisible, hr, hp, List.any_eq_true, Bool.and_eq_true]
  constructor
  · rintro ⟨record, hrecord, hpass, hidentity⟩
    exact ⟨record, ⟨hrecord, p, hp, hpass⟩, (h.passes_identity_iff hr hi hrecord).1 hidentity⟩
  · rintro ⟨record, ⟨hrecord, q, hq, hpass⟩, hidentity⟩
    cases hp.symm.trans hq
    exact ⟨record, hrecord, hpass, (h.passes_identity_iff hr hi hrecord).2 hidentity⟩

/-- An entity is refused unless it is visible. -/
theorem ensureVisible_on {d : Desk} (hd : d.store.tables = t) (hr : svc.schema.resource? r.name = some r)
    (hi : r.Fits i) :
    (svc.Visible ctx t r i → (svc.ensureVisible ctx r i).on d = (.ok (), d)) ∧
      (¬svc.Visible ctx t r i → (svc.ensureVisible ctx r i).on d = (.error (.notFound r.name i.key), d)) := by
  obtain ⟨p, hp⟩ := h.compiles _ r hr
  rw [Service.ensureVisible_on svc ctx r hr hp, hd, requireVisible, ← h.isVisible_iff hr hi]
  exact ⟨fun hvisible => by rw [if_pos hvisible], fun hhidden => by rw [if_neg hhidden]⟩

/-- The members of an entity, by its row. -/
theorem visibleMember_iff (hr : svc.schema.resource? r.name = some r) {row : Record}
    (hrow : row ∈ t.rowsOf r.name) (hi : r.identityOf? row = some i) :
    svc.VisibleMember ctx t r i rel target child ↔ ∃ record, svc.Shows ctx t target record ∧
      target.identityOf? record = some child ∧ record ∈ t.members svc.schema r row rel := by
  constructor
  · rintro ⟨other, record, hother, hidentity, hshows, hchild, hmember⟩
    have hsame := h.row?_of_identityOf? hr hother hidentity
    rw [h.row?_of_identityOf? hr hrow hi] at hsame
    cases hsame
    exact ⟨record, hshows, hchild, hmember⟩
  · rintro ⟨record, hshows, hchild, hmember⟩
    exact ⟨row, record, hrow, hi, hshows, hchild, hmember⟩

section

variable {d : Desk} (hd : d.store.tables = t) (hr : svc.schema.resource? r.name = some r)
  (hrelated : svc.related r name = .ok (rel, target)) {row : Record} (hrow : row ∈ t.rowsOf r.name)
  (hi : r.identityOf? row = some i)

include hd hr hrelated hrow hi

/-- A member is found iff it is visible and a member. -/
theorem hasMember_on (hchild : target.Fits child) :
    ∃ found, (svc.hasMember ctx r i name child).on d = (.ok found, d) ∧
      (found = true ↔ svc.VisibleMember ctx t r i rel target child) := by
  obtain ⟨hrel, htarget⟩ := related_eq_ok hrelated
  rw [← Resource.name_of_relationship? hrel] at hrel
  obtain ⟨rows, records, hon, hrecords, hmem⟩ := h.rows_on_window hd
    (Schema.resource?_of_target? htarget) .unbounded (.all [membership r i rel, .identity target child])
  refine ⟨!rows.isEmpty, ?_, ?_⟩
  · unfold hasMember
    rw [Serving.bind_on, Serving.liftM_on, hrelated]
    dsimp only
    rw [Serving.bind_on, hon]
    rfl
  · rw [← List.isEmpty_map, hrecords, Window.apply_unbounded, (Sorting.sort_perm _ _).isEmpty_eq,
      Bool.not_eq_true', List.isEmpty_eq_false_iff_exists_mem, h.visibleMember_iff hr hrow hi]
    refine exists_congr fun record => (hmem record).trans (and_congr_right fun hshows => ?_)
    have hmembership := h.passes_membership_iff hr hrel htarget hrow hi hshows.1
    have hidentity := h.passes_identity_iff htarget hchild hshows.1
    rw [Tables.passes] at hidentity
    simp [Predicate.holds_all, hmembership, hidentity, and_comm]

/-- The member that a to-one relationship leads on to is the least visible one. -/
theorem relatedIdentity_on :
    ∃ found, (svc.relatedIdentity ctx r i name).on d = (.ok found, d) ∧
      svc.LeastMember ctx t r i rel target found := by
  obtain ⟨hrel, htarget⟩ := related_eq_ok hrelated
  rw [← Resource.name_of_relationship? hrel] at hrel
  obtain ⟨rows, records, hon, hrecords, hmem⟩ := h.rows_on_window hd
    (Schema.resource?_of_target? htarget) firstOnly (membership r i rel)
  have hmembers : ∀ record, record ∈ records ↔
      svc.Shows ctx t target record ∧ record ∈ t.members svc.schema r row rel := fun record =>
    (hmem record).trans <| and_congr_right fun hshows =>
      h.passes_membership_iff hr hrel htarget hrow hi hshows.1
  have hfitting : ∀ record ∈ records, ∃ i, target.identityOf? record = some i ∧ target.Fits i :=
    fun record hrecord =>
      (h.row?_of_mem htarget ((hmembers record).1 hrecord).1.1).imp fun _ hi => ⟨hi.1, hi.2.1⟩
  have hhead : (rows.map Row.record).head? = (Sorting.sort (Record.compare target []) records).head? := by
    rw [hrecords]
    cases Sorting.sort (Record.compare target []) records <;> rfl
  have hon : (svc.relatedIdentity ctx r i name).on d =
      (.ok ((rows.map Row.record).head?.bind target.identityOf?), d) := by
    unfold relatedIdentity
    rw [Serving.bind_on, Serving.liftM_on, hrelated]
    dsimp only
    rw [Serving.bind_on, hon]
    cases rows <;> rfl
  refine ⟨_, hon, ?_⟩
  rw [hhead]
  cases hfirst : (Sorting.sort (Record.compare target []) records).head? with
  | none =>
    have hnone : records = [] := by
      rw [List.head?_eq_none_iff] at hfirst
      exact List.perm_nil.1 (hfirst ▸ (Sorting.sort_perm _ _).symm)
    intro other hother
    obtain ⟨record, hshows, -, hmember⟩ := (h.visibleMember_iff hr hrow hi).1 hother
    have hrecord := (hmembers record).2 ⟨hshows, hmember⟩
    rw [hnone] at hrecord
    cases hrecord
  | some record =>
    obtain ⟨hrecord, hleast⟩ := Sorting.least_of_head? target.orders_compare hfitting hfirst
    obtain ⟨child, hchild, -⟩ := hfitting record hrecord
    obtain ⟨hshows, hmember⟩ := (hmembers record).1 hrecord
    rw [Option.bind_some, hchild]
    refine ⟨(h.visibleMember_iff hr hrow hi).2 ⟨record, hshows, hchild, hmember⟩, fun other hother => ?_⟩
    obtain ⟨found, hfound, hidentity, hstands⟩ := (h.visibleMember_iff hr hrow hi).1 hother
    rw [← Resource.compare_eq_order hchild hidentity]
    exact hleast found ((hmembers found).2 ⟨hfound, hstands⟩)

end

theorem fits_of_visibleMember (htarget : svc.schema.target? rel = some target)
    (hchild : svc.VisibleMember ctx t r i rel target child) : target.Fits child := by
  obtain ⟨-, record, -, -, hshows, hidentity, -⟩ := hchild
  obtain ⟨j, hj, hfits, -⟩ := h.row?_of_mem htarget hshows.1
  cases hj.symm.trans hidentity
  exact hfits

/-- There is one least member at most. -/
theorem leastMember_unique (htarget : svc.schema.target? rel = some target) {found other : Option Identity}
    (hfound : svc.LeastMember ctx t r i rel target found)
    (hother : svc.LeastMember ctx t r i rel target other) : found = other := by
  cases found with
  | none => cases other with
    | none => rfl
    | some j => exact absurd hother.1 (hfound j)
  | some m => cases other with
    | none => exact absurd hfound.1 (hother m)
    | some j =>
      have hm := h.fits_of_visibleMember htarget hfound.1
      have hj := h.fits_of_visibleMember htarget hother.1
      refine congrArg some (target.ordersStrictly.eq m j hm hj ?_)
      have hup := hfound.2 j hother.1
      have hdown := hother.2 m hfound.1
      rw [target.ordersStrictly.swap m j hm hj] at hdown
      cases horder : target.order m j with
      | lt =>
        rw [horder] at hdown
        exact absurd rfl hdown
      | eq => rfl
      | gt => exact absurd horder hup

end Settled

end Service

end NestedResources
