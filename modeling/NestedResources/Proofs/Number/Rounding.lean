import Mathlib
import NestedResources.Number.Binary64

/-!
# Rounding to doubles

A double stands for all numbers between the midpoints to its neighbours, and for the midpoints themselves
if its significand is even (`Binary64.Covers`). Quotients and decimal numerals are rounded to the double
that covers them (`Binary64.ofRatio?_of_covers`, `Binary64.ofDecimal?_of_covers`).
-/
namespace NestedResources

theorem cast_twoTo (n : Nat) : (twoTo n : ℚ) = 2 ^ n := by
  rw [twoTo, Nat.pow_eq, Nat.cast_pow, Nat.cast_ofNat]

theorem cast_tenTo (n : Nat) : (tenTo n : ℚ) = 10 ^ n := by
  rw [tenTo, Nat.pow_eq, Nat.cast_pow, Nat.cast_ofNat]

/-- A power is a quotient of two powers, one of which is one. -/
theorem zpow_eq_div_toNat {b : ℚ} (hb : b ≠ 0) (e : Int) : b ^ e = b ^ e.toNat / b ^ (-e).toNat := by
  rw [← zpow_natCast, ← zpow_natCast, ← zpow_sub₀ hb]
  congr 1
  omega

theorem twoTo_div_twoTo (e : Int) : (twoTo e.toNat : ℚ) / twoTo (-e).toNat = 2 ^ e := by
  rw [cast_twoTo, cast_twoTo, zpow_eq_div_toNat two_ne_zero]

theorem tenTo_div_tenTo (e : Int) : (tenTo e.toNat : ℚ) / tenTo (-e).toNat = 10 ^ e := by
  rw [cast_tenTo, cast_tenTo, zpow_eq_div_toNat (by norm_num)]

/-- The absolute value of a decimal numeral. -/
def Decimal.magnitude (d : Decimal) : ℚ := d.digits * 10 ^ d.exponent

namespace Binary64

variable {x : Binary64} {v : ℚ} {num den : Nat}

/-! ## The numbers around a double -/

/-- The unit in the last place. -/
def ulp (x : Binary64) : ℚ := 2 ^ x.exponent

/-- The absolute value. -/
def value (x : Binary64) : ℚ := x.significand * x.ulp

/-- How far it is to the midpoint below. The neighbour below a power of two is only half as far as the one
above. -/
def reach (x : Binary64) : ℚ :=
  if x.significand = 0x10000000000000 ∧ -1074 < x.exponent then x.ulp / 4 else x.ulp / 2

/-- The numbers that have this double as the nearest one, ties going to the even significand. -/
def Covers (x : Binary64) (v : ℚ) : Prop :=
  if x.significand % 2 = 0 then x.value - x.reach ≤ v ∧ v ≤ x.value + x.ulp / 2
  else x.value - x.reach < v ∧ v < x.value + x.ulp / 2

theorem ulp_pos (x : Binary64) : 0 < x.ulp := zpow_pos two_pos x.exponent

theorem reach_le (x : Binary64) : x.reach ≤ x.ulp / 2 := by
  have := x.ulp_pos
  unfold reach
  split <;> linarith

theorem Covers.le (h : x.Covers v) : x.value - x.reach ≤ v := by
  unfold Covers at h
  split at h
  · exact h.1
  · exact h.1.le

theorem Covers.ge (h : x.Covers v) : v ≤ x.value + x.ulp / 2 := by
  unfold Covers at h
  split at h
  · exact h.2
  · exact h.2.le

theorem ulp_le_value (hx : x.significand ≠ 0) : x.ulp ≤ x.value := by
  have hone : (1 : ℚ) ≤ x.significand := by exact_mod_cast Nat.one_le_iff_ne_zero.2 hx
  exact le_mul_of_one_le_left x.ulp_pos.le hone

theorem Covers.pos (hx : x.significand ≠ 0) (h : x.Covers v) : 0 < v := by
  have := x.ulp_pos
  have := ulp_le_value hx
  have := x.reach_le
  have := h.le
  linarith

theorem two_zpow_add (e : Int) (n : Nat) : (2 : ℚ) ^ (e + n) = 2 ^ n * 2 ^ e := by
  rw [zpow_add₀ two_ne_zero, zpow_natCast, mul_comm]

/-- What a double covers is below the next power of two. -/
theorem Covers.lt_zpow (h : x.Covers v) : v < 2 ^ (x.exponent + 53) := by
  have hbound : (x.significand : ℚ) + 1 ≤ 2 ^ 53 := by exact_mod_cast x.normal.1
  have hpos := x.ulp_pos
  calc v ≤ x.value + x.ulp / 2 := h.ge
    _ < (x.significand + 1) * x.ulp := by rw [value]; linarith
    _ ≤ 2 ^ 53 * x.ulp := mul_le_mul_of_nonneg_right hbound hpos.le
    _ = 2 ^ (x.exponent + 53) := (two_zpow_add x.exponent 53).symm

/-- What a double covers is at least half of its least value. -/
theorem Covers.zpow_le (hx : x.significand ≠ 0) (h : x.Covers v) : 2 ^ (-1075 : Int) ≤ v := by
  have hleast : (2 : ℚ) ^ (-1074 : Int) ≤ x.ulp := zpow_le_zpow_right₀ one_le_two x.normal.2.1
  have hhalf : (2 : ℚ) ^ (-1074 : Int) = 2 * 2 ^ (-1075 : Int) := by
    rw [← zpow_one_add₀ two_ne_zero]
    rfl
  have := ulp_le_value hx
  have := x.reach_le
  have := h.le
  linarith

/-! ## Quotients in units of a power of two -/

/-- The fraction `num / den` counted in units of `2 ^ e`. -/
def scaled (num den : Nat) (e : Int) : Nat × Nat :=
  if 0 ≤ e then (num, den * twoTo e.toNat) else (num * twoTo (-e).toNat, den)

/-- The exponent that a fraction is rounded at. -/
def gauge (num den : Nat) : Int :=
  let estimate : Int := max (-1074) (Nat.log2 num - Nat.log2 den - 53)
  if 0x20000000000000 ≤ (scaled num den estimate).1 / (scaled num den estimate).2 then estimate + 1
  else estimate

theorem ofRatio?_eq (negative : Bool) (hnum : num ≠ 0) : ofRatio? negative num den =
    let m := roundQuotient (scaled num den (gauge num den)).1 (scaled num den (gauge num den)).2
    if m = 0x20000000000000 then ofParts? negative 0x10000000000000 (gauge num den + 1)
    else ofParts? negative m (gauge num den) :=
  if_neg hnum

theorem scaled_pos (hden : 0 < den) (e : Int) : 0 < (scaled num den e).2 := by
  unfold scaled
  split
  · exact Nat.mul_pos hden (twoTo_pos _)
  · exact hden

theorem scaled_div (num den : Nat) (e : Int) :
    ((scaled num den e).1 : ℚ) / (scaled num den e).2 = num / den / 2 ^ e := by
  rw [← twoTo_div_twoTo]
  unfold scaled
  split
  · rename_i he
    have hone : twoTo (-e).toNat = 1 := by rw [Int.toNat_of_nonpos (by omega)]; rfl
    simp only [hone, Nat.cast_mul, Nat.cast_one, div_one, div_div]
  · rename_i he
    have hone : twoTo e.toNat = 1 := by rw [Int.toNat_of_nonpos (by omega)]; rfl
    simp only [hone, Nat.cast_mul, Nat.cast_one, one_div, div_inv_eq_mul]
    ring

/-- A whole number is below a rounded down quotient exactly if it is below the quotient. -/
theorem le_scaled_iff (hden : 0 < den) (e : Int) (m : Nat) :
    m ≤ (scaled num den e).1 / (scaled num den e).2 ↔ (m : ℚ) * 2 ^ e ≤ num / den := by
  have hpos : (0 : ℚ) < (scaled num den e).2 := by exact_mod_cast scaled_pos hden e
  have htwo : (0 : ℚ) < 2 ^ e := zpow_pos two_pos e
  rw [Nat.le_div_iff_mul_le (scaled_pos hden e), ← le_div_iff₀ htwo, ← scaled_div, le_div_iff₀ hpos]
  exact_mod_cast Iff.rfl

theorem zpow_log2_le (hnum : num ≠ 0) : (2 : ℚ) ^ (Nat.log2 num : Int) ≤ num := by
  rw [zpow_natCast]
  exact_mod_cast Nat.log2_self_le hnum

theorem lt_zpow_log2 (num : Nat) : (num : ℚ) < 2 ^ ((Nat.log2 num : Int) + 1) := by
  rw [← Nat.cast_succ, zpow_natCast]
  exact_mod_cast Nat.lt_log2_self

/-- The lengths of numerator and denominator give the quotient up to a factor of two. -/
theorem zpow_lt_div (hnum : num ≠ 0) (hden : 0 < den) :
    (2 : ℚ) ^ ((Nat.log2 num : Int) - Nat.log2 den - 1) < num / den ∧
      (num : ℚ) / den < 2 ^ ((Nat.log2 num : Int) - Nat.log2 den + 1) := by
  have hpos : (0 : ℚ) < den := by exact_mod_cast hden
  constructor
  · rw [lt_div_iff₀ hpos]
    calc (2 : ℚ) ^ ((Nat.log2 num : Int) - Nat.log2 den - 1) * den
        < 2 ^ ((Nat.log2 num : Int) - Nat.log2 den - 1) * 2 ^ ((Nat.log2 den : Int) + 1) :=
          mul_lt_mul_of_pos_left (lt_zpow_log2 den) (zpow_pos two_pos _)
      _ = 2 ^ (Nat.log2 num : Int) := by rw [← zpow_add₀ two_ne_zero]; congr 1; omega
      _ ≤ num := zpow_log2_le hnum
  · rw [div_lt_iff₀ hpos]
    calc (num : ℚ) < 2 ^ ((Nat.log2 num : Int) + 1) := lt_zpow_log2 num
      _ = 2 ^ ((Nat.log2 num : Int) - Nat.log2 den + 1) * 2 ^ (Nat.log2 den : Int) := by
          rw [← zpow_add₀ two_ne_zero]; congr 1; omega
      _ ≤ 2 ^ ((Nat.log2 num : Int) - Nat.log2 den + 1) * den :=
          mul_le_mul_of_nonneg_left (zpow_log2_le hden.ne') (zpow_pos two_pos _).le

/-- The exponent is the one at which the quotient has 53 binary digits, or the least one. -/
theorem gauge_spec (hnum : num ≠ 0) (hden : 0 < den) :
    -1074 ≤ gauge num den ∧ (num : ℚ) / den < 2 ^ (gauge num den + 53) ∧
      ((2 : ℚ) ^ (gauge num den + 52) ≤ num / den ∨ gauge num den = -1074) := by
  obtain ⟨hlow, hhigh⟩ := zpow_lt_div hnum hden
  have hmono : ∀ {a b : Int}, a ≤ b → (2 : ℚ) ^ a ≤ 2 ^ b := fun h => zpow_le_zpow_right₀ one_le_two h
  unfold gauge
  generalize hestimate : max (-1074 : Int) (Nat.log2 num - Nat.log2 den - 53) = estimate
  have hstep : ((0x20000000000000 : Nat) : ℚ) * 2 ^ estimate = 2 ^ (estimate + 53) := by
    rw [show (53 : Int) = (53 : Nat) from rfl, two_zpow_add]
    norm_num
  dsimp only
  split
  · rename_i hlarge
    rw [le_scaled_iff hden, hstep] at hlarge
    refine ⟨by omega, hhigh.trans_le (hmono (by omega)), .inl ?_⟩
    rwa [show estimate + 1 + 52 = estimate + 53 by omega]
  · rename_i hsmall
    rw [le_scaled_iff hden, hstep, not_le] at hsmall
    refine ⟨by omega, hsmall, ?_⟩
    rcases le_total (-1074 : Int) (Nat.log2 num - Nat.log2 den - 53) with h | h
    · exact .inl ((hmono (by omega)).trans hlow.le)
    · exact .inr (by omega)

/-! ## Rounding -/

/-- What rounding to a whole number means in whole numbers. -/
theorem roundQuotient_eq_of_le {n d m : Nat} (hd : 0 < d) (hlow : 2 * (m * d) ≤ 2 * n + d)
    (hhigh : 2 * n ≤ 2 * (m * d) + d)
    (htie : m % 2 = 0 ∨ 2 * (m * d) < 2 * n + d ∧ 2 * n < 2 * (m * d) + d) : roundQuotient n d = m := by
  have hdiv : n = n / d * d + n % d := by rw [Nat.mul_comm]; exact (Nat.div_add_mod n d).symm
  have hmod := Nat.mod_lt n hd
  unfold roundQuotient
  dsimp only
  generalize n / d = q at *
  generalize n % d = r at *
  have hqm : q ≤ m := by
    by_contra hlt
    have := Nat.mul_le_mul_right d (Nat.lt_of_not_le hlt)
    rw [Nat.succ_mul] at this
    omega
  have hmq : m ≤ q + 1 := by
    by_contra hlt
    have := Nat.mul_le_mul_right d (Nat.lt_of_not_le hlt)
    rw [Nat.succ_mul, Nat.succ_mul] at this
    omega
  obtain rfl | rfl : m = q ∨ m = q + 1 := by omega
  · split
    · rfl
    · split
      · omega
      · split <;> omega
  · have hmul : (q + 1) * d = q * d + d := Nat.succ_mul q d
    split
    · omega
    · split
      · rfl
      · split <;> omega

/-- A quotient at most half away from a whole number is rounded to it, if a tie can only go there. -/
theorem roundQuotient_eq {n d m : Nat} (hd : 0 < d) (hlow : (m : ℚ) - 1 / 2 ≤ n / d)
    (hhigh : (n : ℚ) / d ≤ m + 1 / 2)
    (htie : m % 2 = 0 ∨ (m : ℚ) - 1 / 2 < n / d ∧ (n : ℚ) / d < m + 1 / 2) : roundQuotient n d = m := by
  have hpos : (0 : ℚ) < d := by exact_mod_cast hd
  rw [le_div_iff₀ hpos] at hlow
  rw [div_le_iff₀ hpos] at hhigh
  rw [lt_div_iff₀ hpos, div_lt_iff₀ hpos] at htie
  have hlow' : (2 * (m * d) : ℚ) ≤ 2 * n + d := by linarith
  have hhigh' : (2 * n : ℚ) ≤ 2 * (m * d) + d := by linarith
  refine roundQuotient_eq_of_le hd (by exact_mod_cast hlow') (by exact_mod_cast hhigh') ?_
  refine htie.imp_right fun ⟨hl, hh⟩ => ?_
  have hl' : (2 * (m * d) : ℚ) < 2 * n + d := by linarith
  have hh' : (2 * n : ℚ) < 2 * (m * d) + d := by linarith
  exact ⟨by exact_mod_cast hl', by exact_mod_cast hh'⟩

theorem ofParts?_parts (x : Binary64) : ofParts? x.negative x.significand x.exponent = some x :=
  dif_pos x.normal

/-- A double that covers a number below its normal range is a power of two, and the number is more than half
of it. -/
theorem Covers.of_lt_normal (h : x.Covers v) (hexp : -1074 < x.exponent) (hv : v < 2 ^ (x.exponent + 52)) :
    x.significand = 0x10000000000000 ∧ (2 : ℚ) ^ (x.exponent + 51) < v := by
  have hpos := x.ulp_pos
  have hreach := x.reach_le
  have hlow := h.le
  have hulp : x.ulp = 2 ^ x.exponent := rfl
  rw [show (52 : Int) = (52 : Nat) from rfl, two_zpow_add, ← hulp] at hv
  rw [show (51 : Int) = (51 : Nat) from rfl, two_zpow_add, ← hulp]
  rw [value] at hlow
  have hpower : x.significand = 0x10000000000000 := by
    by_contra hne
    have hmore : (2 : ℚ) ^ 52 + 1 ≤ x.significand := by
      have hnormal := x.normal.2.2.2.resolve_right hexp.ne'
      have : 2 ^ 52 + 1 ≤ x.significand := by omega
      exact_mod_cast this
    have := mul_le_mul_of_nonneg_right hmore hpos.le
    linarith
  refine ⟨hpower, ?_⟩
  rw [hpower] at hlow
  norm_num at hlow ⊢
  linarith

/-- A quotient that a double covers is measured at the exponent of the double, or just below a power of two
at the exponent before. -/
theorem Covers.gauge_eq (hx : x.significand ≠ 0) (hden : 0 < den) (h : x.Covers (num / den)) :
    gauge num den = x.exponent ∨
      gauge num den + 1 = x.exponent ∧ x.significand = 0x10000000000000 ∧ -1074 < x.exponent := by
  have hnum : num ≠ 0 := by
    rintro rfl
    simpa using h.pos hx
  obtain ⟨hleast, hhigh, hlow⟩ := gauge_spec hnum hden
  have hmono : ∀ {a b : Int}, a ≤ b → (2 : ℚ) ^ a ≤ 2 ^ b := fun h => zpow_le_zpow_right₀ one_le_two h
  rcases lt_trichotomy (gauge num den) x.exponent with hlt | heq | hgt
  · right
    have hexp : -1074 < x.exponent := by omega
    obtain ⟨hpower, hhalf⟩ := h.of_lt_normal hexp (hhigh.trans_le (hmono (by omega)))
    refine ⟨?_, hpower, hexp⟩
    by_contra hne
    exact absurd (hhigh.trans_le (hmono (by omega))) (not_lt.2 hhalf.le)
  · exact .inl heq
  · have hnormal := hlow.resolve_right (by have := x.normal.2.1; omega)
    exact absurd ((hmono (by omega)).trans hnormal) (not_le.2 h.lt_zpow)

/-- What a double covers, counted in its last place. -/
theorem Covers.div_ulp (h : x.Covers v) :
    (x.significand : ℚ) - 1 / 2 ≤ v / x.ulp ∧ v / x.ulp ≤ x.significand + 1 / 2 ∧
      (x.significand % 2 = 0 ∨
        (x.significand : ℚ) - 1 / 2 < v / x.ulp ∧ v / x.ulp < x.significand + 1 / 2) := by
  have hpos := x.ulp_pos
  have hreach := x.reach_le
  have hlow := h.le
  have hhigh := h.ge
  rw [value] at hlow hhigh
  refine ⟨?_, ?_, ?_⟩
  · rw [le_div_iff₀ hpos]
    linarith
  · rw [div_le_iff₀ hpos]
    linarith
  · unfold Covers at h
    split at h
    · exact .inl ‹_›
    · obtain ⟨hl, hh⟩ := h
      rw [value] at hl hh
      rw [lt_div_iff₀ hpos, div_lt_iff₀ hpos]
      exact .inr ⟨by linarith, by linarith⟩

/-- Quotients are rounded to the double that covers them. -/
theorem ofRatio?_of_covers (hx : x.significand ≠ 0) (hden : 0 < den) (h : x.Covers (num / den)) :
    ofRatio? x.negative num den = some x := by
  have hnum : num ≠ 0 := by
    rintro rfl
    simpa using h.pos hx
  have hpos := x.ulp_pos
  have hulp : x.ulp = 2 ^ x.exponent := rfl
  rw [ofRatio?_eq _ hnum]
  dsimp only
  have hdiv := scaled_div num den (gauge num den)
  rcases h.gauge_eq hx hden with heq | ⟨hbelow, hpower, hexp⟩
  · obtain ⟨hlow, hhigh, htie⟩ := h.div_ulp
    rw [heq, ← hulp] at hdiv
    rw [heq, roundQuotient_eq (scaled_pos hden _) (hdiv ▸ hlow) (hdiv ▸ hhigh) (hdiv ▸ htie),
      if_neg x.normal.1.ne, ofParts?_parts]
  · have hhalf : x.ulp = 2 * 2 ^ gauge num den := by
      rw [hulp, ← hbelow, zpow_add_one₀ two_ne_zero, mul_comm]
    have hlow := h.le
    rw [value, reach, if_pos ⟨hpower, hexp⟩, hpower, hhalf] at hlow
    have hgauge : (0 : ℚ) < 2 ^ gauge num den := zpow_pos two_pos _
    have hhigh := (gauge_spec hnum hden).2.1
    rw [show (53 : Int) = (53 : Nat) from rfl, two_zpow_add] at hhigh
    have hround : roundQuotient (scaled num den (gauge num den)).1 (scaled num den (gauge num den)).2
        = 0x20000000000000 := by
      refine roundQuotient_eq (scaled_pos hden _) ?_ ?_ (.inl rfl)
      · rw [hdiv, le_div_iff₀ hgauge]
        norm_num at hlow ⊢
        linarith
      · rw [hdiv, div_le_iff₀ hgauge]
        norm_num at hhigh ⊢
        linarith
    rw [hround, if_pos rfl, hbelow, ← hpower, ofParts?_parts]

/-! ## Decimal numerals -/

theorem length_toString (n : Nat) : (toString n).length = (Nat.toDigits 10 n).length := by
  rw [Nat.toString_eq_repr, ← String.length_toList, Nat.toList_repr]

theorem lt_ten_pow_length (n : Nat) : n < 10 ^ (toString n).length := by
  rw [length_toString]
  exact (Nat.length_toDigits_le_iff (by decide) Nat.length_toDigits_pos).1 le_rfl

theorem ten_pow_length_le {n : Nat} (hn : n ≠ 0) : 10 ^ ((toString n).length - 1) ≤ n := by
  rw [length_toString]
  rcases Nat.eq_zero_or_pos ((Nat.toDigits 10 n).length - 1) with hzero | hpos
  · rw [hzero]
    omega
  · refine Nat.le_of_not_lt fun hlt => ?_
    have := (Nat.length_toDigits_le_iff (by decide) hpos).2 hlt
    omega

/-- The number of places of a numeral gives its size up to a factor of ten. -/
theorem magnitude_bounds {d : Decimal} (hd : d.digits ≠ 0) :
    (10 : ℚ) ^ (((toString d.digits).length : Int) + d.exponent - 1) ≤ d.magnitude ∧
      d.magnitude < 10 ^ (((toString d.digits).length : Int) + d.exponent) := by
  have hten : (10 : ℚ) ≠ 0 := by norm_num
  have hpos : (0 : ℚ) < 10 ^ d.exponent := zpow_pos (by norm_num) _
  have hlength : 0 < (toString d.digits).length := by
    rw [length_toString]
    exact Nat.length_toDigits_pos
  constructor
  · have hle : (10 : ℚ) ^ ((toString d.digits).length - 1) ≤ d.digits := by
      exact_mod_cast ten_pow_length_le hd
    have hsplit : ((toString d.digits).length : Int) + d.exponent - 1
        = ((toString d.digits).length - 1 : Nat) + d.exponent := by omega
    rw [hsplit, zpow_add₀ hten, zpow_natCast]
    exact mul_le_mul_of_nonneg_right hle hpos.le
  · have hlt : (d.digits : ℚ) < 10 ^ (toString d.digits).length := by
      exact_mod_cast lt_ten_pow_length d.digits
    rw [zpow_add₀ hten, zpow_natCast]
    exact mul_lt_mul_of_pos_right hlt hpos

/-- Both cut-offs lie beyond all that doubles cover. -/
theorem Covers.places {d : Decimal} (hx : x.significand ≠ 0) (hd : d.digits ≠ 0) (h : x.Covers d.magnitude) :
    -330 ≤ ((toString d.digits).length : Int) + d.exponent ∧
      ((toString d.digits).length : Int) + d.exponent ≤ 310 := by
  have hten : (1 : ℚ) ≤ 10 := by norm_num
  obtain ⟨hlow, hhigh⟩ := magnitude_bounds hd
  constructor
  · by_contra hsmall
    have hpower : d.magnitude < 10 ^ (-331 : Int) :=
      hhigh.trans_le (zpow_le_zpow_right₀ hten (by omega))
    have hcut : (10 : ℚ) ^ (-331 : Int) ≤ 2 ^ (-1075 : Int) := by
      have : 2 ^ 1075 ≤ 10 ^ 331 := by decide +kernel
      have hcast : (2 : ℚ) ^ 1075 ≤ 10 ^ 331 := by exact_mod_cast this
      have := inv_anti₀ (pow_pos two_pos _) hcast
      rwa [← zpow_natCast, ← zpow_natCast, ← zpow_neg, ← zpow_neg] at this
    exact absurd (h.zpow_le hx) (not_le.2 (hpower.trans_le hcut))
  · by_contra hlarge
    have hpower : (10 : ℚ) ^ (310 : Int) ≤ d.magnitude :=
      (zpow_le_zpow_right₀ hten (by omega)).trans hlow
    have hmost : d.magnitude < 2 ^ (1024 : Int) :=
      h.lt_zpow.trans_le (zpow_le_zpow_right₀ one_le_two (by have := x.normal.2.2.1; omega))
    have hcut : (2 : ℚ) ^ (1024 : Int) ≤ 10 ^ (310 : Int) := by
      have : 2 ^ 1024 ≤ 10 ^ 310 := by decide +kernel
      exact_mod_cast this
    exact absurd (hcut.trans hpower) (not_le.2 hmost)

/-- Decimal numerals are rounded to the double that covers them. -/
theorem ofDecimal?_of_covers {d : Decimal} (hx : x.significand ≠ 0) (hneg : d.negative = x.negative)
    (h : x.Covers d.magnitude) : ofDecimal? d = some x := by
  have hd : d.digits ≠ 0 := by
    intro hzero
    have := h.pos hx
    simp [Decimal.magnitude, hzero] at this
  obtain ⟨hdeep, hplaces⟩ := h.places hx hd
  have hvalue : (d.digits : ℚ) * (tenTo d.exponent.toNat / tenTo (-d.exponent).toNat) = d.magnitude := by
    rw [tenTo_div_tenTo, Decimal.magnitude]
  unfold ofDecimal?
  rw [if_neg hd]
  dsimp only
  rw [if_neg (by omega), if_neg (by omega), hneg]
  split
  · have hone : tenTo (-d.exponent).toNat = 1 := by rw [Int.toNat_of_nonpos (by omega)]; rfl
    refine ofRatio?_of_covers hx one_pos ?_
    rwa [Nat.cast_mul, Nat.cast_one, mul_div_assoc, ← Nat.cast_one, ← hone, hvalue]
  · have hone : tenTo d.exponent.toNat = 1 := by rw [Int.toNat_of_nonpos (by omega)]; rfl
    refine ofRatio?_of_covers hx (tenTo_pos _) ?_
    rwa [← hvalue, hone, Nat.cast_one, mul_one_div] at h

end Binary64

end NestedResources
