import NestedResources.Proofs.Number.Numeral
import NestedResources.Proofs.Number.Shortest
import NestedResources.Proofs.Text
import NestedResources.Schema.FieldType

/-!
# Texts of doubles are read back

However the shortest digits of a double are laid out in a document, the reader of numerals finds the same
number in the text (`Digits.exists_cut`), and it rounds that number to the same double
(`Number.ofText?_render`).
-/
namespace NestedResources

/-- A text cut as the reader cuts it: digits, perhaps a point with more digits, perhaps an exponent. -/
structure Decimal.Cut (text : List Char) (value : ℚ) where
  whole : List Char
  places : List Char
  rest : List Char
  exponent : Int
  begins : whole ≠ []
  isDigit : ∀ c ∈ whole ++ places, c.isDigit = true
  ends : rest = [] ∧ exponent = 0 ∨
    rest = 'e' :: (if exponent < 0 then '-' else '+') :: (toString exponent.natAbs).toList
  joined : text = whole ++ '.' :: (places ++ rest) ∨ places = [] ∧ text = whole ++ rest
  denotes : (Nat.ofDigitChars 10 (whole ++ places) 0 : ℚ) * 10 ^ (exponent - places.length) = value

namespace Decimal.Cut

variable {text : List Char} {value : ℚ}

theorem exponent?_rest (c : Cut text value) : Decimal.exponent? c.rest = some c.exponent := by
  rcases c.ends with ⟨hrest, hzero⟩ | hrest
  · rw [hrest, hzero]
    rfl
  · rw [hrest]
    exact Decimal.exponent?_text c.exponent

/-- The reader finds the number that the parts denote. -/
theorem exists_ofUnsigned? (c : Cut text value) (negative : Bool) : ∃ d : Decimal,
    Decimal.ofUnsigned? negative text = some d ∧ d.negative = negative ∧ d.magnitude = value := by
  have hwhole : ∀ d ∈ c.whole, d.isDigit = true := fun d hd => c.isDigit d (List.mem_append_left _ hd)
  have hplaces : ∀ d ∈ c.places, d.isDigit = true := fun d hd => c.isDigit d (List.mem_append_right _ hd)
  rcases c.joined with htext | ⟨hnone, htext⟩
  · rw [htext, Decimal.ofUnsigned?_point negative c.begins hwhole hplaces c.exponent?_rest]
    exact ⟨_, rfl, rfl, c.denotes⟩
  · rw [htext, Decimal.ofUnsigned?_whole negative c.begins hwhole c.exponent?_rest]
    have hdenotes := c.denotes
    rw [hnone, List.append_nil, List.length_nil, Nat.cast_zero, sub_zero] at hdenotes
    exact ⟨_, rfl, rfl, hdenotes⟩

/-- The characters of a numeral. -/
theorem mem_text (c : Cut text value) {d : Char} (hd : d ∈ text) :
    d.isDigit = true ∨ d ∈ ['.', 'e', '-', '+'] := by
  have hrest : ∀ d ∈ c.rest, d.isDigit = true ∨ d ∈ ['.', 'e', '-', '+'] := by
    intro d hd
    rcases c.ends with ⟨hrest, -⟩ | hrest
    · rw [hrest] at hd
      cases hd
    · rw [hrest] at hd
      rcases List.mem_cons.1 hd with rfl | hd
      · exact .inr (by decide)
      · rcases List.mem_cons.1 hd with rfl | hd
        · exact .inr (by split <;> decide)
        · exact .inl (Numeral.isDigit_of_mem_repr hd)
  rcases c.joined with htext | ⟨-, htext⟩
  · rw [htext, List.mem_append, List.mem_cons, List.mem_append] at hd
    rcases hd with hd | rfl | hd | hd
    · exact .inl (c.isDigit d (List.mem_append_left _ hd))
    · exact .inr (by decide)
    · exact .inl (c.isDigit d (List.mem_append_right _ hd))
    · exact hrest d hd
  · rw [htext, List.mem_append] at hd
    rcases hd with hd | hd
    · exact .inl (c.isDigit d (List.mem_append_left _ hd))
    · exact hrest d hd

theorem exists_cons (c : Cut text value) : ∃ d rest, text = d :: rest ∧ d.isDigit = true := by
  obtain ⟨d, whole, hwhole⟩ := List.exists_cons_of_ne_nil c.begins
  have hd : d.isDigit = true := c.isDigit d (by rw [hwhole]; exact List.mem_append_left _ List.mem_cons_self)
  rcases c.joined with htext | ⟨-, htext⟩
  · exact ⟨d, _, by rw [htext, hwhole]; rfl, hd⟩
  · exact ⟨d, _, by rw [htext, hwhole]; rfl, hd⟩

end Decimal.Cut

namespace Digits

open Decimal Numeral

variable {n k : Nat}

theorem isDigit_of_mem_zeros {c : Char} (h : c ∈ List.replicate k '0') : c.isDigit = true := by
  rw [List.eq_of_mem_replicate h]
  rfl

/-- A whole number with its zeros and an empty fraction. -/
theorem cut_whole (n k : Nat) :
    Nonempty (Cut ((toString n).toList ++ List.replicate k '0' ++ ['.', '0']) (n * 10 ^ (k : Int))) := by
  have hne := List.append_ne_nil_of_left_ne_nil (toList_toString_ne_nil n) (List.replicate k '0')
  refine ⟨_, ['0'], [], 0, hne, fun c hc => ?_, .inl ⟨rfl, rfl⟩, .inl rfl, ?_⟩
  · rcases List.mem_append.1 hc with hc | hc
    · exact (List.mem_append.1 hc).elim isDigit_of_mem_repr isDigit_of_mem_zeros
    · exact isDigit_of_mem_zeros (k := 1) hc
  · rw [Nat.ofDigitChars_append, Nat.ofDigitChars_append, ofDigitChars_toString,
      Nat.ofDigitChars_replicate_zero]
    have hlast : Nat.ofDigitChars 10 ['0'] (10 ^ k * n) = 10 * (10 ^ k * n) :=
      Nat.ofDigitChars_replicate_zero (n := 1)
    rw [hlast, zpow_natCast]
    push_cast
    norm_num
    ring

/-- A number with the point among its digits. -/
theorem cut_point (n : Nat) (hk : 0 < k) :
    Nonempty (Cut ((toString n).toList.take k ++ '.' :: (toString n).toList.drop k)
      (n * 10 ^ (-((toString n).toList.drop k).length : Int))) := by
  have hne : (toString n).toList.take k ≠ [] := by
    rw [Ne, List.take_eq_nil_iff, not_or]
    exact ⟨hk.ne', toList_toString_ne_nil n⟩
  refine ⟨_, (toString n).toList.drop k, [], 0, hne, fun c hc => ?_, .inl ⟨rfl, rfl⟩, .inl ?_, ?_⟩
  · rw [List.take_append_drop] at hc
    exact isDigit_of_mem_repr hc
  · rw [List.append_nil]
  · rw [List.take_append_drop, ofDigitChars_toString, zero_sub]

/-- A number whose digits begin after the point. -/
theorem cut_fraction (n k : Nat) :
    Nonempty (Cut ('0' :: '.' :: (List.replicate k '0' ++ (toString n).toList))
      (n * 10 ^ (-(k + (toString n).toList.length) : Int))) := by
  refine ⟨['0'], List.replicate k '0' ++ (toString n).toList, [], 0, by decide, fun c hc => ?_,
    .inl ⟨rfl, rfl⟩, .inl ?_, ?_⟩
  · rcases List.mem_append.1 hc with hc | hc
    · exact isDigit_of_mem_zeros (k := 1) hc
    · exact (List.mem_append.1 hc).elim isDigit_of_mem_zeros isDigit_of_mem_repr
  · rw [List.append_nil]
    rfl
  · have hzero : Nat.ofDigitChars 10 ['0'] 0 = 0 := Nat.ofDigitChars_replicate_zero (n := 1)
    rw [Nat.ofDigitChars_append, Nat.ofDigitChars_append, hzero, Nat.ofDigitChars_replicate_zero,
      Nat.mul_zero, ofDigitChars_toString, List.length_append, List.length_replicate, zero_sub, Nat.cast_add]

/-- A number with one digit before the point and an exponent. -/
theorem cut_exponent (n : Nat) (e : Int) :
    Nonempty (Cut ((toString n).toList.take 1
        ++ (if (toString n).toList.drop 1 = [] then [] else '.' :: (toString n).toList.drop 1)
        ++ 'e' :: ((if e < 0 then ['-'] else ['+']) ++ (toString e.natAbs).toList))
      (n * 10 ^ (e - ((toString n).toList.drop 1).length : Int))) := by
  have hne : (toString n).toList.take 1 ≠ [] := by
    rw [Ne, List.take_eq_nil_iff, not_or]
    exact ⟨Nat.one_ne_zero, toList_toString_ne_nil n⟩
  have hends : 'e' :: ((if e < 0 then ['-'] else ['+']) ++ (toString e.natAbs).toList)
      = 'e' :: (if e < 0 then '-' else '+') :: (toString e.natAbs).toList := by
    split <;> rfl
  refine ⟨(toString n).toList.take 1, (toString n).toList.drop 1, _, e, hne, fun c hc => ?_, .inr hends,
    ?_, ?_⟩
  · rw [List.take_append_drop] at hc
    exact isDigit_of_mem_repr hc
  · split
    · rename_i hnone
      exact .inr ⟨hnone, by rw [List.append_nil]⟩
    · exact .inl (by rw [List.append_assoc]; rfl)
  · rw [List.take_append_drop, ofDigitChars_toString]

/-- The text of digits in a document is cut into parts that denote the same number. -/
theorem exists_cut (d : Digits) : Nonempty (Cut (d.text .document).toList d.value) := by
  have hlength : (toString d.digits).length = (toString d.digits).toList.length := String.length_toList.symm
  rw [value]
  unfold text
  dsimp only
  rw [hlength]
  split
  · split
    · rename_i hexp
      have hcut := cut_whole d.digits d.exponent.toNat
      rw [Int.toNat_of_nonneg hexp] at hcut
      simpa [Binary64.zeros, Binary64.Layout.document] using hcut
    · split
      · rename_i hexp hlead
        generalize hk : (d.exponent + (toString d.digits).toList.length - 1 + 1).toNat = k
        have hcut := cut_point d.digits (k := k) (by omega)
        have hplaces : -(((toString d.digits).toList.drop k).length : Int) = d.exponent := by
          rw [List.length_drop]
          omega
        rw [hplaces] at hcut
        simpa using hcut
      · rename_i hexp hlead
        generalize hk : (-(d.exponent + (toString d.digits).toList.length - 1) - 1).toNat = k
        have hcut := cut_fraction d.digits k
        have hplaces : -((k : Int) + (toString d.digits).toList.length) = d.exponent := by omega
        rw [hplaces] at hcut
        simpa [Binary64.zeros] using hcut
  · have hcut := cut_exponent d.digits (d.exponent + (toString d.digits).toList.length - 1)
    have hne := List.length_pos_of_ne_nil (toList_toString_ne_nil d.digits)
    have hplaces : d.exponent + ((toString d.digits).toList.length : Int) - 1
        - ((toString d.digits).toList.drop 1).length = d.exponent := by
      rw [List.length_drop]
      omega
    rw [hplaces] at hcut
    simpa [apply_ite String.toList, ← String.toList_inj] using hcut

end Digits

namespace RealNumeral

/-- A numeral that begins with a digit, after a minus perhaps. -/
theorem ofText?_signed {s : String} {c : Char} {cs : List Char} (hs : s.toList = c :: cs)
    (hc : c.isDigit = true) (negative : Bool) :
    ofText? (if negative then "-" ++ s else s) = (Decimal.ofUnsigned? negative s.toList).map .finite := by
  have hsign : Numeral.sign (if negative then "-" ++ s else s).toList = (negative, s.toList) := by
    cases negative with
    | true => rw [if_pos rfl, String.toList_append]; rfl
    | false =>
      rw [if_neg Bool.false_ne_true, Numeral.sign_of_isDigit]
      rw [hs]
      rintro d ⟨⟩
      exact hc
  have hword : ∀ word : String, word.toList.head? ≠ some c →
      String.ofList (s.toList.map Char.toLower) ≠ word := by
    rintro word hword rfl
    rw [String.toList_ofList, hs, List.map_cons, toLower_of_isDigit hc] at hword
    exact hword rfl
  have hletter : ∀ d : Char, d.isDigit = false → some d ≠ some c := by
    rintro d hd ⟨⟩
    rw [hd] at hc
    cases hc
  unfold ofText?
  rw [hsign]
  dsimp only
  split
  · exact absurd ‹_› (hword "inf" (hletter 'i' rfl))
  · exact absurd ‹_› (hword "infinity" (hletter 'i' rfl))
  · exact absurd ‹_› (hword "nan" (hletter 'n' rfl))
  · rfl

end RealNumeral

namespace Binary64

variable {x : Binary64}

theorem eq_zero_of_significand (hx : x.significand = 0) : x = zero x.negative := by
  obtain ⟨negative, significand, exponent, hnormal⟩ := x
  obtain rfl : significand = 0 := hx
  obtain rfl : exponent = -1074 := by omega
  rfl

/-- A text of a double is read as a numeral with the sign and the digits of the double. -/
theorem exists_ofText?_render (x : Binary64) : ∃ d : Decimal,
    RealNumeral.ofText? (x.render .document) = some (.finite d) ∧ d.negative = x.negative ∧
      d.magnitude = x.shortest.value := by
  obtain ⟨cut⟩ := x.shortest.exists_cut
  obtain ⟨c, cs, htext, hc⟩ := cut.exists_cons
  obtain ⟨d, hd, hneg, hvalue⟩ := cut.exists_ofUnsigned? x.negative
  refine ⟨d, ?_, hneg, hvalue⟩
  have hread := RealNumeral.ofText?_signed htext hc x.negative
  rw [hd] at hread
  exact hread

theorem mem_render {c : Char} (h : c ∈ (x.render .document).toList) :
    c.isDigit = true ∨ c ∈ ['.', 'e', '-', '+'] := by
  obtain ⟨cut⟩ := x.shortest.exists_cut
  unfold render at h
  dsimp only at h
  split at h
  · rw [String.toList_append, List.mem_append] at h
    rcases h with h | h
    · cases h
      · exact .inr (by decide)
      · contradiction
    · exact cut.mem_text h
  · exact cut.mem_text h

end Binary64

/-- The text of a double is read as that double. -/
theorem Number.ofText?_render (x : Binary64) : Number.ofText? (x.render .document) = some (.float x) := by
  obtain ⟨d, hread, hneg, hvalue⟩ := x.exists_ofText?_render
  rw [ofText?, hread]
  suffices hround : Binary64.ofDecimal? d = some x by
    dsimp only
    rw [hround]
    rfl
  by_cases hx : x.significand = 0
  · have hzero : d.digits = 0 := by
      have hnone : x.shortest = ⟨0, 0⟩ := if_pos hx
      have hten : (10 : ℚ) ^ d.exponent ≠ 0 := zpow_ne_zero _ (by norm_num)
      rw [hnone, Decimal.magnitude, Digits.value, Nat.cast_zero, zero_mul, mul_eq_zero] at hvalue
      exact_mod_cast hvalue.resolve_right hten
    rw [Binary64.ofDecimal?, if_pos hzero, hneg, ← Binary64.eq_zero_of_significand hx]
  · exact Binary64.ofDecimal?_of_covers hx hneg (hvalue ▸ Binary64.covers_shortest hx)

end NestedResources
