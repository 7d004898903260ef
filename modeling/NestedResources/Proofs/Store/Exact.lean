import NestedResources.Proofs.Except
import NestedResources.Proofs.Store.Fetched
import NestedResources.Proofs.Store.Referential

/-!
# Identities that are met exactly

A look-up compares identity columns, and numbers may compare equal without being the same. Texts,
truth values and integers of 64 bits compare equal to themselves only, so a row whose identity is made
of them is met by its own identity and by no other (`Predicate.passes_identity_iff`).
-/
namespace NestedResources

/-- A value that compares equal to itself only, among those of its kind. -/
def Json.isExact : Json → Bool
  | .num n => n.toInt64?.isSome
  | .str _ | .bool _ => true
  | _ => false

/-- A type whose canonical values are exact. -/
def FieldType.isExact : FieldType → Bool
  | .integer | .string | .boolean => true
  | _ => false

theorem Number.toInt64?_eq_some {n : Number} {k : Int} (h : n.toInt64? = some k) : n = .int k := by
  unfold toInt64? at h
  split at h
  · split at h
    · cases h
      rfl
    · cases h
  · cases h

theorem compareBool_eq_eq {a b : Bool} (h : compareBool a b = .eq) : a = b := by
  cases a <;> cases b <;> first | rfl | cases h

/-- Exact values are equal if they compare equal. -/
theorem eq_of_comparesEqual {type : FieldType} (htype : type.isExact = true) {a b : Json}
    (ha : a.isExact = true) (hb : b.isExact = true) (h : comparesEqual type a b = true) : a = b := by
  have hordinary : type ≠ .dateTime := by
    rintro rfl
    cases htype
  have horder : compareValues type a b = some .eq := of_decide_eq_true h
  unfold compareValues at horder
  split at horder
  · rename_i m n
    obtain ⟨x, hx⟩ := Option.isSome_iff_exists.1 ha
    obtain ⟨y, hy⟩ := Option.isSome_iff_exists.1 hb
    rw [Number.compare, hx, hy] at horder
    have hxy : x = y := Std.LawfulEqCmp.eq_of_compare (Option.some.inj horder)
    rw [Number.toInt64?_eq_some hx, Number.toInt64?_eq_some hy, hxy]
  · rw [compareBool_eq_eq (Option.some.inj horder)]
  · rw [if_neg hordinary, if_neg hordinary] at horder
    rw [Std.LawfulEqCmp.eq_of_compare (Option.some.inj horder)]
  · cases horder

theorem comparesEqual_self {type : FieldType} (htype : type.isExact = true) {a : Json}
    (ha : a.isExact = true) : comparesEqual type a a = true := by
  have hordinary : type ≠ .dateTime := by
    rintro rfl
    cases htype
  refine decide_eq_true ?_
  cases a with
  | num n =>
    obtain ⟨x, hx⟩ := Option.isSome_iff_exists.1 ha
    simp [compareValues, Number.compare, hx]
  | str s => simp [compareValues, if_neg hordinary]
  | bool b => cases b <;> rfl
  | _ => cases ha

theorem Json.isNull_of_isExact {v : Json} (h : v.isExact = true) : v.isNull = false := by
  cases v <;> first | rfl | cases h

theorem Operator.holds_eq_iff {type : FieldType} (htype : type.isExact = true) {v w : Json}
    (hv : v.isExact = true) (hw : w.isExact = true) :
    Operator.eq.holds type (some w) v = true ↔ w = v := by
  simp only [Operator.holds, Option.getD_some, Json.isNull_of_isExact hv, Json.isNull_of_isExact hw,
    Bool.false_eq_true, if_false]
  constructor
  · exact eq_of_comparesEqual htype hw hv
  · rintro rfl
    exact comparesEqual_self htype hw

/-! ## Identities -/

/-- All items have values iff each single one has. -/
theorem mapM_eq_some {α β : Type} {f : α → Option β} {items : List α} {bs : List β} :
    items.mapM f = some bs ↔ List.Forall₂ (fun a b => f a = some b) items bs := by
  induction items generalizing bs with
  | nil => cases bs <;> simp [pure]
  | cons a items ih =>
    rw [List.mapM_cons]
    constructor
    · intro h
      obtain ⟨b, hb, h⟩ := Option.bind_eq_some_iff.1 h
      obtain ⟨rest, hrest, h⟩ := Option.bind_eq_some_iff.1 h
      cases h
      exact .cons hb (ih.1 hrest)
    · rintro (_ | ⟨hb, hrest⟩)
      rw [hb, ih.2 hrest]
      rfl

namespace Identity

/-- An identity of exact values. -/
def IsExact (i : Identity) : Prop := ∀ v ∈ i.values, v.isExact = true

end Identity

theorem Record.get?_of_value? {record : Record} {column : String} {v : Json}
    (h : record.value? column = some v) : record.get? column = some v := by
  unfold value? at h
  split at h
  · cases h
  · exact h

theorem Record.value?_of_get? {record : Record} {column : String} {v : Json}
    (h : record.get? column = some v) (hv : v ≠ .null) : record.value? column = some v := by
  unfold value?
  rw [h]
  split
  · rename_i heq
    exact absurd (Option.some.inj heq) hv
  · rfl

/-- The identity of a row stands in the identity columns. -/
theorem Resource.identityOf?_eq_some {r : Resource} {record : Record} {i : Identity} :
    r.identityOf? record = some i ↔
      List.Forall₂ (fun f v => record.value? f.column = some v) r.identityFields i.values := by
  rw [← mapM_eq_some, identityOf?, Option.map_eq_some_iff]
  constructor
  · rintro ⟨values, hvalues, rfl⟩
    exact hvalues
  · exact fun h => ⟨i.values, h, rfl⟩

namespace Predicate

/-- The conditions on the identity columns hold iff the columns have the wanted values. -/
theorem all_holds_iff {record : Record} {fields : List Field} {stored wanted : List Json}
    (htypes : ∀ f ∈ fields, f.type.isExact = true)
    (hstored : List.Forall₂ (fun (f : Field) v => record.value? f.column = some v) fields stored)
    (hexact : ∀ v ∈ stored, v.isExact = true) (hwanted : ∀ v ∈ wanted, v.isExact = true)
    (hlength : wanted.length = fields.length) :
    (fields.zip wanted).all (fun p => Operator.eq.holds p.1.type (record.get? p.1.column) p.2) = true ↔
      stored = wanted := by
  induction hstored generalizing wanted with
  | nil =>
    rw [List.eq_nil_of_length_eq_zero hlength]
    simp
  | @cons f w fs ws hw _ ih =>
    cases wanted with
    | nil => cases hlength
    | cons v vs =>
      have hfirst := Operator.holds_eq_iff (htypes f List.mem_cons_self) (hwanted v List.mem_cons_self)
        (hexact w List.mem_cons_self)
      have hrest := ih (fun g hg => htypes g (List.mem_cons_of_mem f hg))
        (fun x hx => hexact x (List.mem_cons_of_mem w hx))
        (fun x hx => hwanted x (List.mem_cons_of_mem v hx)) (Nat.succ.inj hlength)
      rw [List.zip_cons_cons, List.all_cons, Bool.and_eq_true, hrest, List.cons.injEq,
        Record.get?_of_value? hw, hfirst]

theorem passes_identity_iff {t : Tables} {schema : Schema} {r : Resource} {record : Record}
    {i j : Identity} (htypes : ∀ f ∈ r.identityFields, f.type.isExact = true)
    (hrecord : r.identityOf? record = some j) (hj : j.IsExact) (hi : i.IsExact)
    (hlength : i.values.length = r.identityFields.length) :
    t.passes schema r (some (identity r i)) record = true ↔ j = i := by
  have hall := all_holds_iff htypes (Resource.identityOf?_eq_some.1 hrecord) hj hi hlength
  rw [Tables.passes, identity, holds, holdsAll_eq_all, List.all_map]
  refine Iff.trans ?_ (hall.trans ⟨fun h => ?_, congrArg Identity.values⟩)
  · rfl
  · cases i
    cases j
    exact congrArg Identity.mk h

end Predicate

/-! ## Identities in documents -/

theorem Json.isExact_int {n : Int} (h : -0x8000000000000000 ≤ n ∧ n < 0x8000000000000000) :
    (Json.int n).isExact = true := by
  simp [int, isExact, Number.toInt64?, h]

theorem Number.isExact_of_toInteger? {n : Number} {k : Int} (h : n.toInteger? = some k) :
    (Json.int k).isExact = true := by
  unfold toInteger? at h
  split at h
  · split at h
    · rename_i hbounds
      cases h
      exact Json.isExact_int hbounds
    · cases h
  · split at h
    · split at h
      · rename_i hbound
        cases h
        exact Json.isExact_int (by omega)
      · cases h
    · cases h

theorem Numeral.isExact_of_signed64? {s : String} {k : Int} (h : signed64? s = some k) :
    (Json.int k).isExact = true := by
  unfold signed64? at h
  generalize sign s.toList = signed at h
  obtain ⟨n, -, h⟩ := Option.bind_eq_some_iff.1 h
  obtain ⟨hbounds, h⟩ := Option.ite_none_right_eq_some.1 h
  exact Option.some.inj h ▸ Json.isExact_int hbounds

/-- The values that a type with exact values has after coercion. -/
def FieldType.admits : FieldType → Json → Bool
  | .integer, .num n => n.toInt64?.isSome
  | .string, .str _ | .boolean, .bool _ => true
  | _, _ => false

theorem FieldType.isExact_of_admits {type : FieldType} {v : Json} (h : type.admits v = true) :
    type.isExact = true ∧ v.isExact = true := by
  cases type <;> cases v <;> first | exact ⟨rfl, h⟩ | cases h

/-- What is coerced to an exact type is of its values. -/
theorem FieldType.admits_of_coerce {type : FieldType} (htype : type.isExact = true) {raw v : Json}
    (hraw : raw ≠ .null) (h : type.coerce raw = .ok v) : type.admits v = true := by
  unfold coerce at h
  dsimp only at h
  split at h
  · exact absurd rfl hraw
  · cases htype
  · cases h
    rfl
  · split at h
    · rename_i hn
      cases h
      exact Number.isExact_of_toInteger? hn
    · cases h
  · split at h
    · rename_i hn
      cases h
      exact Numeral.isExact_of_signed64? hn
    · cases h
  · cases htype
  · cases htype
  · cases h
    rfl
  · split at h
    · cases h
      rfl
    · cases h
  · cases htype
  · cases h

theorem FieldType.isExact_of_coerce {type : FieldType} (htype : type.isExact = true) {raw v : Json}
    (hraw : raw ≠ .null) (h : type.coerce raw = .ok v) : v.isExact = true :=
  (isExact_of_admits (admits_of_coerce htype hraw h)).2

/-- The identity that a document names is what its identity fields are coerced to. -/
theorem Resource.identityIn?_eq_some {r : Resource} {document : List (String × Json)} {i : Identity}
    (h : r.identityIn? document = some i) :
    List.Forall₂ (fun f v => ∃ raw, Entries.get? f.name document = some raw ∧ raw ≠ .null ∧
      f.type.coerce raw = .ok v) r.identityFields i.values := by
  obtain ⟨values, hvalues, rfl⟩ := Option.map_eq_some_iff.1 h
  refine (mapM_eq_some.1 hvalues).imp fun f v hv => ?_
  split at hv
  · cases hv
  · cases hv
  · rename_i raw hnull hraw
    refine ⟨raw, hraw, hnull, ?_⟩
    cases hcoerce : f.type.coerce raw with
    | error why =>
      rw [hcoerce] at hv
      cases hv
    | ok w =>
      rw [hcoerce] at hv
      cases hv
      rfl

/-- The identity that a document names is exact. -/
theorem Resource.isExact_of_identityIn? {r : Resource}
    (htypes : ∀ f ∈ r.identityFields, f.type.isExact = true) {document : List (String × Json)}
    {i : Identity} (h : r.identityIn? document = some i) :
    i.IsExact ∧ i.values.length = r.identityFields.length := by
  have hvalues := identityIn?_eq_some h
  refine ⟨fun v hv => ?_, hvalues.length_eq.symm⟩
  have htyped := (List.forall₂_and_left _ _).2 ⟨htypes, hvalues⟩
  obtain ⟨f, htype, raw, -, hraw, hcoerce⟩ := Except.exists_of_forall₂ htyped.flip hv
  exact FieldType.isExact_of_coerce htype hraw hcoerce

/-- The components of the identity that path segments spell are coerced from segments. -/
theorem Resource.coerced_of_parseIdentity? {r : Resource} {segments : List String} {i : Identity}
    (h : r.parseIdentity? segments = some i) :
    List.Forall₂ (fun f v => ∃ text ∈ segments, f.type.coerce (.str text) = .ok v) r.identityFields i.values := by
  obtain ⟨hlength, h⟩ := Option.ite_none_right_eq_some.1 h
  obtain ⟨values, hvalues, rfl⟩ := Option.map_eq_some_iff.1 h
  have hcount : r.identityFields.length ≤ segments.length :=
    hlength ▸ List.length_filterMap_le r.field? r.identity
  have hfields : (r.identityFields.zip segments).map Prod.fst = r.identityFields := List.map_fst_zip hcount
  rw [← hfields, List.forall₂_map_left_iff]
  refine ((List.forall₂_and_left _ _).2 ⟨fun _ hp => hp, mapM_eq_some.1 hvalues⟩).imp fun p v ⟨hp, hv⟩ => ?_
  exact ⟨p.2, (List.of_mem_zip hp).2, Except.toOption_eq_some.1 hv⟩

/-- Every row of a resource is filed under its own identity, which is exact. -/
def Tables.FiledExactly (t : Tables) (r : Resource) : Prop :=
  ∀ key record, t.rowAt? r.name key = some record →
    ∃ i, r.identityOf? record = some i ∧ i.key = key ∧ i.IsExact

theorem Tables.filedExactly_iff {t : Tables} {r : Resource} : t.FiledExactly r ↔
    ∀ e ∈ (t.table r.name).entries, ∃ i ∈ r.identityOf? e.2, i.key = e.1 ∧ ∀ v ∈ i.values, v.isExact = true :=
  ⟨fun h e he => h e.1 e.2 (Dict.get?_eq_some_iff.2 he), fun h key record hrow =>
    h (key, record) (Dict.get?_eq_some_iff.1 hrow)⟩

instance (t : Tables) (r : Resource) : Decidable (t.FiledExactly r) :=
  decidable_of_iff _ Tables.filedExactly_iff.symm

end NestedResources
