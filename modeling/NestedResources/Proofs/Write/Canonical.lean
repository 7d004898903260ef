import NestedResources.Demo.Music
import NestedResources.Proofs.Timestamp.Reread
import NestedResources.Proofs.Write.Creation

/-!
# Canonical values

What coercion makes of a value is left alone by coercion, and a field that accepts a value accepts what it made
of it. Date-times are the exception: RFC 3339 has years of four digits, and an instant whose year in UTC is
another one is written as a text that no date-time field reads (`FieldType.coerce_coerce`).
-/
namespace NestedResources

namespace FieldType

variable {type : FieldType} {v w : Json}

/-- Whether a value, read as a date-time if it is to be one, is in a year of four digits. -/
def HasPlainYear (type : FieldType) (v : Json) : Prop :=
  ∀ s t, type = .dateTime → v = .str s → Timestamp.ofText? s = some t → t.HasPlainYear

theorem coerce_int {n : Int} (h : -0x8000000000000000 ≤ n ∧ n < 0x8000000000000000) :
    integer.coerce (.int n) = .ok (.int n) := by
  have hread : Number.toInteger? (.int n) = some n := if_pos h
  unfold coerce Json.int
  dsimp only
  rw [hread]

theorem bounds_of_toInteger? {n : Number} {i : Int} (h : n.toInteger? = some i) :
    -0x8000000000000000 ≤ i ∧ i < 0x8000000000000000 := by
  unfold Number.toInteger? at h
  split at h
  · obtain ⟨hbounds, hvalue⟩ := Option.ite_none_right_eq_some.1 h
    exact Option.some.inj hvalue ▸ hbounds
  · split at h
    · obtain ⟨hbound, hvalue⟩ := Option.ite_none_right_eq_some.1 h
      have hvalue := Option.some.inj hvalue
      omega
    · cases h

theorem bounds_of_signed64? {s : String} {i : Int} (h : Numeral.signed64? s = some i) :
    -0x8000000000000000 ≤ i ∧ i < 0x8000000000000000 := by
  obtain ⟨n, -, h⟩ := Option.bind_eq_some_iff.1 h
  obtain ⟨hbounds, hvalue⟩ := Option.ite_none_right_eq_some.1 h
  exact Option.some.inj hvalue ▸ hbounds

/-- An integer field holds integers of 64 bits. -/
theorem coerce_integer (h : integer.coerce v = .ok w) : integer.coerce w = .ok w := by
  unfold coerce at h
  cases v with
  | null =>
    cases h
    rfl
  | num n =>
    dsimp only at h
    split at h
    · rename_i i hi
      cases h
      exact coerce_int (bounds_of_toInteger? hi)
    · cases h
  | str s =>
    dsimp only at h
    split at h
    · rename_i i hi
      cases h
      exact coerce_int (bounds_of_signed64? hi)
    · cases h
  | _ => cases h

theorem coerce_of_ne_dateTime (htype : type ≠ .dateTime) (h : type.coerce v = .ok w) : type.coerce w = .ok w := by
  cases type with
  | dateTime => exact absurd rfl htype
  | integer => exact coerce_integer h
  | string | json =>
    unfold coerce at h
    cases v <;> cases h <;> rfl
  | number | boolean =>
    unfold coerce at h
    cases v with
    | str s =>
      dsimp only at h
      split at h
      · cases h
        rfl
      · cases h
    | _ => cases h <;> rfl

theorem coerce_of_ofText? {s : String} {t : Timestamp} (h : Timestamp.ofText? s = some t) :
    dateTime.coerce (.str s) = .ok (.str t.text) := by
  unfold coerce
  dsimp only
  rw [h]

theorem coerce_of_ofText?_eq_none {s : String} (h : Timestamp.ofText? s = none) :
    dateTime.coerce (.str s) = .error (.unreadable s .dateTime) := by
  unfold coerce
  dsimp only
  rw [h]

/-- A date-time field writes the instant of the text, and leaves that alone in years of four digits. -/
theorem coerce_dateTime {s : String} (h : dateTime.coerce (.str s) = .ok w) :
    ∃ t : Timestamp, Timestamp.ofText? s = some t ∧ w = .str t.text ∧
      (t.HasPlainYear → dateTime.coerce w = .ok w) ∧
      (¬t.HasPlainYear → dateTime.coerce w = .error (.unreadable t.text .dateTime)) := by
  unfold coerce at h
  dsimp only at h
  split at h
  · rename_i t ht
    cases h
    have hday := Timestamp.inDay_of_ofText? ht
    exact ⟨t, ht, rfl, fun hyear => coerce_of_ofText? (Timestamp.ofText?_text hday hyear),
      fun hyear => coerce_of_ofText?_eq_none (Timestamp.ofText?_text_eq_none hyear)⟩
  · cases h

/-- What coercion makes of a value is coerced to itself in years of four digits, and is unreadable in others. -/
theorem coerce_coerce (h : type.coerce v = .ok w) :
    (type.HasPlainYear v → type.coerce w = .ok w) ∧
    (¬type.HasPlainYear v → ∃ text, w = .str text ∧ type.coerce w = .error (.unreadable text .dateTime)) := by
  by_cases htype : type = .dateTime
  · subst htype
    cases v with
    | null =>
      cases h
      exact ⟨fun _ => rfl, fun hyear => absurd (fun _ _ _ hv => by cases hv) hyear⟩
    | str s =>
      obtain ⟨t, ht, rfl, hkept, hrefused⟩ := coerce_dateTime h
      have hiff : dateTime.HasPlainYear (.str s) ↔ t.HasPlainYear := by
        refine ⟨fun hyear => hyear s t rfl rfl ht, fun hyear s' t' _ hs ht' => ?_⟩
        cases hs
        rw [ht] at ht'
        exact Option.some.inj ht' ▸ hyear
      rw [hiff]
      exact ⟨hkept, fun hyear => ⟨_, rfl, hrefused hyear⟩⟩
    | _ => cases h
  · exact ⟨fun _ => coerce_of_ne_dateTime htype h, fun hyear => absurd (fun _ _ hd => absurd hd htype) hyear⟩

end FieldType

namespace Field

variable {f : Field} {path : String} {v w : Json}

theorem check_eq {raw : Json} (hraw : raw ≠ .null) (path : String) : f.check path raw =
    match f.type.coerce raw with
    | .error why => .error [(Defect.invalidType why).issueAt path]
    | .ok value => match f.rules.flatMap (Rule.violations f.type value) with
      | [] => .ok value
      | found => .error (found.map fun v => ⟨path, v.code, v.message⟩) := by
  have hnull : ¬raw.isNull = true := by
    cases raw with
    | null => exact absurd rfl hraw
    | _ => exact Bool.false_ne_true
  unfold check
  exact if_neg hnull

/-- A field accepts what it made of a value, under the same condition: its rules have looked at this already. -/
theorem check_check (h : f.check path v = .ok w) (other : String) :
    (f.type.HasPlainYear v → f.check other w = .ok w) ∧
    (¬f.type.HasPlainYear v → ∃ text, w = .str text ∧
      f.check other w = .error [(Defect.invalidType (.unreadable text .dateTime)).issueAt other]) := by
  by_cases hv : v = .null
  · subst hv
    obtain rfl : w = .null := by
      unfold check at h
      split at h
      · split at h <;> cases h
        rfl
      · rename_i hnull
        exact absurd rfl hnull
    exact ⟨fun _ => check_of_path h other, fun hyear => absurd (fun _ _ _ hs => by cases hs) hyear⟩
  · have hcoerce := coerce_of_check hv h
    have hw := FieldType.ne_null_of_coerce hv hcoerce
    obtain ⟨hkept, hrefused⟩ := FieldType.coerce_coerce hcoerce
    refine ⟨fun hyear => ?_, fun hyear => ?_⟩
    · rw [check_eq hv, hcoerce] at h
      rw [check_eq hw, hkept hyear]
      dsimp only at h ⊢
      split at h
      · rfl
      · cases h
    · obtain ⟨text, htext, hagain⟩ := hrefused hyear
      exact ⟨text, htext, by rw [check_eq hw, hagain]⟩

/-- Coercion and the checks of fields give canonical values, which they leave as they are, except for date-times
that are in a year before 0 or after 9999 in UTC: what these become is unreadable as a date-time. -/
theorem canonical_of_accepted (v w : Json) :
    (∀ type : FieldType, type.coerce v = .ok w →
      (type.HasPlainYear v → type.coerce w = .ok w) ∧
      (¬type.HasPlainYear v → ∃ text, w = .str text ∧ type.coerce w = .error (.unreadable text .dateTime))) ∧
    ∀ (f : Field) (path : String), f.check path v = .ok w → ∀ other,
      (f.type.HasPlainYear v → f.check other w = .ok w) ∧
      (¬f.type.HasPlainYear v → ∃ text, w = .str text ∧
        f.check other w = .error [(Defect.invalidType (.unreadable text .dateTime)).issueAt other]) :=
  ⟨fun _ => FieldType.coerce_coerce, fun _ _ => check_check⟩

end Field

namespace Music

/-- An early hour of the new year east of Greenwich. -/
def newYear : Json := .str "2009-01-01T01:30:00+02:00"

/-- The last hour of the last year of four digits, west of Greenwich. -/
def lastHour : Json := .str "9999-12-31T23:59:59-01:00"

/-- The day on which somebody was hired. -/
def hireDate : Field := { field "hire_date" .dateTime with optional := true }

/-- The early hour is stored as an instant of the old year, and accepted as that in turn. -/
theorem newYear_canonical : hireDate.check "hire_date" newYear = .ok (.str "2008-12-31T23:30:00Z") ∧
    FieldType.dateTime.coerce (.str "2008-12-31T23:30:00Z") = .ok (.str "2008-12-31T23:30:00Z") ∧
    hireDate.check "0.hire_date" (.str "2008-12-31T23:30:00Z") = .ok (.str "2008-12-31T23:30:00Z") := by
  obtain ⟨hread, htext⟩ : Timestamp.ofText? "2009-01-01T01:30:00+02:00" = some ⟨14244, 84600, 0⟩ ∧
      (Timestamp.mk 14244 84600 0).text = "2008-12-31T23:30:00Z" := by decide +kernel
  have hcoerce : FieldType.dateTime.coerce newYear = .ok (.str "2008-12-31T23:30:00Z") :=
    htext ▸ FieldType.coerce_of_ofText? hread
  have hcheck : hireDate.check "hire_date" newYear = .ok (.str "2008-12-31T23:30:00Z") := by
    rw [Field.check_eq (fun hnull => by cases hnull), show hireDate.type = .dateTime from rfl, hcoerce]
    rfl
  have hyear : FieldType.dateTime.HasPlainYear newYear := by
    intro s t _ hs ht
    cases hs
    cases hread.symm.trans ht
    decide +kernel
  obtain ⟨hvalues, hfields⟩ := Field.canonical_of_accepted newYear (.str "2008-12-31T23:30:00Z")
  exact ⟨hcheck, (hvalues _ hcoerce).1 hyear, (hfields _ _ hcheck "0.hire_date").1 hyear⟩

/-- An hour before the end of the year 9999 is accepted, and what it becomes is not. -/
theorem lastHour_refused : FieldType.dateTime.coerce lastHour = .ok (.str "+10000-01-01T00:59:59Z") ∧
    FieldType.dateTime.coerce (.str "+10000-01-01T00:59:59Z")
      = .error (.unreadable "+10000-01-01T00:59:59Z" .dateTime) := by
  obtain ⟨hread, htext, hnone⟩ : Timestamp.ofText? "9999-12-31T23:59:59-01:00" = some ⟨2932897, 3599, 0⟩ ∧
      (Timestamp.mk 2932897 3599 0).text = "+10000-01-01T00:59:59Z" ∧
      Timestamp.ofText? "+10000-01-01T00:59:59Z" = none := by decide +kernel
  exact ⟨htext ▸ FieldType.coerce_of_ofText? hread, FieldType.coerce_of_ofText?_eq_none hnone⟩

end Music

end NestedResources
