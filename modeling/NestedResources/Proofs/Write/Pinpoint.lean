import NestedResources.Proofs.Store.Fading
import NestedResources.Proofs.Write.Open

/-!
# Identities that find their row

A look-up compares identity columns with an identity. Where the identity compares equal to that of its own
row and of no other row, the look-up finds this row or nothing, whatever the types of the columns are, and
it goes on to do so in tables that fade.
-/
namespace NestedResources

/-! ## Finding -/

/-- Whether the identity columns of a row compare equal to the values of an identity. -/
def Resource.meets (r : Resource) (i : Identity) (record : Record) : Bool :=
  (r.identityFields.zip i.values).all fun e => Operator.eq.holds e.1.type (record.get? e.1.column) e.2

namespace Tables

/-- An identity compares equal to that of its own row and of no other row. -/
def Pinpoints (t : Tables) (r : Resource) (i : Identity) : Prop :=
  ∀ row ∈ t.rowsOf r.name, r.meets i row = true ↔ t.Stores r i row

variable {t u : Tables} {s : Schema} {r : Resource} {i : Identity} {record : Record}

theorem passes_identity (t : Tables) (s : Schema) (r : Resource) (i : Identity) (record : Record) :
    t.passes s r (some (.identity r i)) record = r.meets i record := by
  rw [passes, Predicate.identity, Predicate.holds, Predicate.holdsAll_eq_all, List.all_map]
  rfl

/-- Exact identities find their rows, if there are any. -/
theorem FiledExactly.pinpoints_of_isExact (h : t.FiledExactly r)
    (htypes : ∀ f ∈ r.identityFields, f.type.isExact = true) (hexact : i.IsExact)
    (hlength : i.values.length = r.identityFields.length) (s : Schema) : t.Pinpoints r i := by
  intro row hrow
  obtain ⟨key, hkey⟩ := mem_rowsOf.1 hrow
  obtain ⟨j, hj, rfl, hjexact⟩ := h key row hkey
  rw [← t.passes_identity s, Predicate.passes_identity_iff htypes hj hjexact hexact hlength]
  constructor
  · rintro rfl
    exact ⟨hkey, hj⟩
  · exact fun hstores => Option.some.inj (hj.symm.trans hstores.identity)

/-- Exact identities find their rows. -/
theorem FiledExactly.pinpoints (h : t.FiledExactly r)
    (htypes : ∀ f ∈ r.identityFields, f.type.isExact = true) (hstores : t.Stores r i record) (s : Schema) :
    t.Pinpoints r i := by
  obtain ⟨j, hj, -, hexact⟩ := h i.key record hstores.row
  cases hj.symm.trans hstores.identity
  exact h.pinpoints_of_isExact htypes hexact (Resource.identityOf?_eq_some.1 hj).length_eq.symm s

end Tables

/-! ## Faded rows -/

theorem Operator.ne_null_of_holds {type : FieldType} {stored : Option Json} {v : Json} (hv : v ≠ .null)
    (h : Operator.eq.holds type stored v = true) : stored ≠ some .null := by
  rintro rfl
  cases v with
  | null => exact hv rfl
  | _ => simp [Operator.holds, Json.isNull] at h

theorem Identity.ne_null_of_identityOf? {r : Resource} {record : Record} {i : Identity}
    (h : r.identityOf? record = some i) : ∀ v ∈ i.values, v ≠ .null := by
  intro v hv
  obtain ⟨f, hf⟩ := Except.exists_of_forall₂ (Resource.identityOf?_eq_some.1 h).flip hv
  exact Record.value?_ne_null hf

namespace Record.Fades

variable {r : Resource} {i : Identity} {old new : Record}

/-- Identity columns that compare equal to values are not cleared. -/
theorem get?_of_meets (h : old.Fades new) (hi : ∀ v ∈ i.values, v ≠ .null) (hmeets : r.meets i new = true) :
    ∀ e ∈ r.identityFields.zip i.values, new.get? e.1.column = old.get? e.1.column := by
  intro e he
  have hholds := List.all_eq_true.1 hmeets e he
  refine (h e.1.column).resolve_right ?_
  exact Operator.ne_null_of_holds (hi e.2 (List.of_mem_zip he).2) hholds

theorem meets (h : old.Fades new) (hi : ∀ v ∈ i.values, v ≠ .null) (hmeets : r.meets i new = true) :
    r.meets i old = true := by
  refine List.all_eq_true.2 fun e he => ?_
  rw [← h.get?_of_meets hi hmeets e he]
  exact List.all_eq_true.1 hmeets e he

/-- A faded row that still meets an identity still has it. -/
theorem identityOf?_of_meets (h : old.Fades new) (hold : r.identityOf? old = some i)
    (hmeets : r.meets i new = true) : r.identityOf? new = some i := by
  obtain ⟨hlength, hvalues⟩ := List.forall₂_iff_zip.1 (Resource.identityOf?_eq_some.1 hold)
  refine Resource.identityOf?_eq_some.2 (List.forall₂_iff_zip.2 ⟨hlength, fun he => ?_⟩)
  rw [Record.value?_congr (h.get?_of_meets (Identity.ne_null_of_identityOf? hold) hmeets _ he)]
  exact hvalues he

end Record.Fades

namespace Tables

variable {t u : Tables} {r : Resource} {i : Identity} {record : Record}

/-- What is stored was stored before. -/
theorem Stores.of_fades {new : Record} (h : u.Stores r i new) (hfades : t.Fades u) :
    ∃ old, t.Stores r i old ∧ old.Fades new := by
  obtain ⟨old, hold, hfaded⟩ := hfades.rows r.name i.key new h.row
  exact ⟨old, ⟨hold, hfaded.identityOf? h.identity⟩, hfaded⟩

/-- Fading does not make identities alike. -/
theorem Pinpoints.of_fades (h : t.Pinpoints r i) (hkeyed : t.Keyed r) (hstores : t.Stores r i record)
    (hfades : t.Fades u) : u.Pinpoints r i := by
  have hvalues := Identity.ne_null_of_identityOf? hstores.identity
  intro new hnew
  obtain ⟨key, hrow⟩ := mem_rowsOf.1 hnew
  obtain ⟨old, hold, hfaded⟩ := hfades.rows r.name key new hrow
  have hmem : old ∈ t.rowsOf r.name := mem_rowsOf.2 ⟨key, hold⟩
  constructor
  · intro hmeets
    have hstored := (h old hmem).1 (hfaded.meets hvalues hmeets)
    have hkey : i.key = key := hkeyed key old i hold hstored.identity
    refine ⟨?_, hfaded.identityOf?_of_meets hstored.identity hmeets⟩
    rw [row?, hkey]
    exact hrow
  · intro hstored
    obtain ⟨before, hbefore, hfaded'⟩ := hstored.of_fades hfades
    have hmeets := (h before hbefore.mem_rowsOf).2 hbefore
    refine List.all_eq_true.2 fun e he => ?_
    have hnow := (List.forall₂_iff_zip.1 (Resource.identityOf?_eq_some.1 hstored.identity)).2 he
    have hthen := (List.forall₂_iff_zip.1 (Resource.identityOf?_eq_some.1 hbefore.identity)).2 he
    rw [Record.get?_of_value? hnow, ← Record.get?_of_value? hthen]
    exact List.all_eq_true.1 hmeets e he

end Tables

end NestedResources
