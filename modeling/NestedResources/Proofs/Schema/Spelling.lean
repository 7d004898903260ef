import NestedResources.Proofs.Except
import NestedResources.Proofs.Number.Rendered
import NestedResources.Proofs.Schema.Lookup

/-!
# Values that path segments spell

A component of an identity is a part of its key, and parts of a path are coerced as texts. Texts that are
segments come back, and so do integers, truth values and doubles (`FieldType.coerce_componentKey`). Coercion
makes no other values out of segments (`FieldType.spells_of_coerce`).
-/
namespace NestedResources

/-- A text that stands in a path as one segment. -/
def Text.isSegment (s : String) : Bool := s ≠ "" && !s.toList.contains '/'

theorem Text.isSegment_iff {s : String} : Text.isSegment s = true ↔ s.toList ≠ [] ∧ '/' ∉ s.toList := by
  simp [isSegment]

/-! ## Texts of scalars -/

namespace Timestamp

theorem slash_notMem_padLeft (width n : Nat) : '/' ∉ (padLeft width n).toList := by
  intro h
  rw [padLeft, String.toList_append, String.toList_ofList, List.mem_append] at h
  rcases h with h | h
  · cases List.eq_of_mem_replicate h
  · cases Numeral.isDigit_of_mem_repr h

theorem slash_notMem_yearText (year : Int) : '/' ∉ (yearText year).toList := by
  unfold yearText
  split
  · exact slash_notMem_padLeft _ _
  · split <;> simp [slash_notMem_padLeft]

theorem slash_notMem_fractionText (nano : Nat) : '/' ∉ (fractionText nano).toList := by
  unfold fractionText
  split
  · decide
  · split
    · simp [slash_notMem_padLeft]
    · split <;> simp [slash_notMem_padLeft]

/-- The text of an instant stands in a path as one segment. -/
theorem isSegment_text (t : Timestamp) : Text.isSegment t.text = true := by
  rw [Text.isSegment_iff]
  unfold text
  simp [slash_notMem_padLeft, slash_notMem_yearText, slash_notMem_fractionText]

end Timestamp

theorem Numeral.isSegment_toString (n : Int) : Text.isSegment (toString n) = true := by
  have hdigits : '/' ∉ (toString n.natAbs).toList := fun h => by cases isDigit_of_mem_repr h
  have hne := toList_toString_ne_nil n.natAbs
  rw [Text.isSegment_iff, toList_toString_int]
  split
  · exact ⟨List.cons_ne_nil _ _, fun h => (List.mem_cons.1 h).elim (fun hc => by cases hc) hdigits⟩
  · exact ⟨hne, hdigits⟩

theorem Numeral.trim_toString (n : Int) : Text.trim (toString n) = toString n := by
  refine Text.trim_of_forall fun c hc => ?_
  rw [toList_toString_int] at hc
  split at hc
  · rcases List.mem_cons.1 hc with rfl | hc
    · rfl
    · exact Text.isBlank_of_isDigit (isDigit_of_mem_repr hc)
  · exact Text.isBlank_of_isDigit (isDigit_of_mem_repr hc)

theorem Binary64.render_ne_nil (x : Binary64) : (x.render .document).toList ≠ [] := by
  intro h
  have hread := Number.ofText?_render x
  rw [String.toList_eq_nil_iff.1 h] at hread
  cases hread

theorem Binary64.isSegment_render (x : Binary64) : Text.isSegment (x.render .document) = true := by
  refine Text.isSegment_iff.2 ⟨x.render_ne_nil, fun h => ?_⟩
  rcases mem_render h with h | h
  · cases h
  · exact absurd h (by decide)

theorem Binary64.trim_render (x : Binary64) : Text.trim (x.render .document) = x.render .document := by
  refine Text.trim_of_forall fun c hc => ?_
  rcases mem_render hc with h | h
  · exact Text.isBlank_of_isDigit h
  · fin_cases h <;> rfl

/-! ## Components of identities -/

namespace FieldType

variable {type : FieldType} {v : Json} {text : String}

/-- The values of a type that path segments spell. -/
def spells (type : FieldType) : Json → Bool
  | .str s => Text.isSegment s
  | .num (.int _) => type = .integer
  | .num (.float _) => type = .number
  | .bool _ => type = .boolean
  | _ => false

theorem bounds_of_coerce {n : Int} (h : integer.coerce (.num (.int n)) = .ok v) :
    -0x8000000000000000 ≤ n ∧ n < 0x8000000000000000 := by
  unfold coerce Number.toInteger? at h
  dsimp only at h
  split at h
  · rename_i hbounds
    by_contra hout
    rw [if_neg hout] at hbounds
    cases hbounds
  · cases h

/-- A value that segments spell is read back from its part of a key. -/
theorem coerce_componentKey (hkept : type.coerce v = .ok v) (hspelled : type.spells v = true) :
    Text.isSegment (Identity.componentKey v) = true ∧
      type.coerce (.str (Identity.componentKey v)) = .ok v := by
  cases v with
  | str s => exact ⟨hspelled, hkept⟩
  | num n =>
    cases n with
    | int n =>
      obtain rfl : type = .integer := of_decide_eq_true hspelled
      have hread : Numeral.signed64? (Text.trim (toString n)) = some n := by
        obtain ⟨hlow, hhigh⟩ := bounds_of_coerce hkept
        rw [Numeral.trim_toString, Numeral.signed64?_toString hlow hhigh]
      have hkey : Identity.componentKey (.num (.int n)) = toString n := rfl
      rw [hkey]
      unfold coerce
      dsimp only
      rw [hread]
      exact ⟨Numeral.isSegment_toString n, rfl⟩
    | float x =>
      obtain rfl : type = .number := of_decide_eq_true hspelled
      have hread : Number.ofText? (Text.trim (x.render .document)) = some (.float x) := by
        rw [x.trim_render, Number.ofText?_render]
      have hkey : Identity.componentKey (.num (.float x)) = x.render .document := rfl
      rw [hkey]
      unfold coerce
      dsimp only
      rw [hread]
      exact ⟨x.isSegment_render, rfl⟩
  | bool b =>
    obtain rfl : type = .boolean := of_decide_eq_true hspelled
    cases b
    · exact ⟨by decide, rfl⟩
    · exact ⟨by decide, rfl⟩
  | _ => cases hspelled

theorem Number.exists_float_of_ofText? {s : String} {n : Number} (h : Number.ofText? s = some n) :
    ∃ x, n = .float x := by
  unfold Number.ofText? at h
  split at h
  · obtain ⟨x, -, rfl⟩ := Option.map_eq_some_iff.1 h
    exact ⟨x, rfl⟩
  · cases h

/-- Coercion makes values out of segments that segments spell. -/
theorem spells_of_coerce (htext : Text.isSegment text = true) (h : type.coerce (.str text) = .ok v) :
    type.spells v = true := by
  unfold coerce at h
  cases type with
  | string | json =>
    cases h
    exact htext
  | integer | boolean =>
    dsimp only at h
    split at h
    · cases h
      rfl
    · cases h
  | number =>
    dsimp only at h
    split at h
    · rename_i n hn
      obtain ⟨x, rfl⟩ := Number.exists_float_of_ofText? hn
      cases h
      rfl
    · cases h
  | dateTime =>
    dsimp only at h
    split at h
    · rename_i t _
      cases h
      exact t.isSegment_text
    · cases h

end FieldType

end NestedResources
