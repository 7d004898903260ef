import NestedResources.Json.Basic
import NestedResources.Proofs.Number.Rounding

/-!
# Doubles nearest to integers

Integers of 64 bits have a nearest double, and no greater integer has a smaller one. Up to `2 ^ 53` every
integer has a double of its own.
-/
namespace NestedResources

namespace Binary64

variable {x y : Binary64} {u v w : ℚ}

/-! ## Doubles that cover a number -/

/-- What lies between covered numbers is covered. -/
theorem Covers.of_between (hu : x.Covers u) (hw : x.Covers w) (huv : u ≤ v) (hvw : v ≤ w) : x.Covers v := by
  unfold Covers at *
  split
  · rename_i heven
    rw [if_pos heven] at hu hw
    exact ⟨hu.1.trans huv, hvw.trans hw.2⟩
  · rename_i hodd
    rw [if_neg hodd] at hu hw
    exact ⟨hu.1.trans_le huv, hvw.trans_lt hw.2⟩

theorem covers_value (x : Binary64) : x.Covers x.value := by
  have hpos := x.ulp_pos
  have hreach : 0 < x.reach := by
    unfold reach
    split <;> linarith
  unfold Covers
  split <;> constructor <;> linarith

theorem value_eq_div (x : Binary64) : ∃ num den : Nat, 0 < den ∧ x.value = num / den := by
  refine ⟨x.significand * twoTo x.exponent.toNat, twoTo (-x.exponent).toNat, twoTo_pos _, ?_⟩
  rw [value, ulp, ← twoTo_div_twoTo, Nat.cast_mul, mul_div_assoc]

/-- A number is covered by one double of a sign. -/
theorem Covers.unique (hx : x.significand ≠ 0) (hy : y.significand ≠ 0) (hsign : x.negative = y.negative)
    {num den : Nat} (hden : 0 < den) (hxv : x.Covers (num / den)) (hyv : y.Covers (num / den)) : x = y := by
  have hround := ofRatio?_of_covers hx hden hxv
  rw [hsign, ofRatio?_of_covers hy hden hyv] at hround
  exact (Option.some.inj hround).symm

/-- Of two doubles of a sign the one that covers the greater number is not the smaller one. -/
theorem Covers.value_le (hx : x.significand ≠ 0) (hy : y.significand ≠ 0) (hsign : x.negative = y.negative)
    {m n : Nat} (hxm : x.Covers m) (hyn : y.Covers n) (hle : m ≤ n) : x.value ≤ y.value := by
  by_contra hlt
  rw [not_le] at hlt
  have hcast : (m : ℚ) ≤ n := by exact_mod_cast hle
  obtain ⟨num, den, hden, hvalue⟩ := y.value_eq_div
  -- Otherwise the value of one of them, or `m` itself, is covered by both.
  rcases le_total (m : ℚ) y.value with hm | hm
  · have hboth := hxm.of_between x.covers_value hm hlt.le
    rw [hvalue] at hboth
    have heq := hboth.unique hx hy hsign hden (hvalue ▸ y.covers_value)
    rw [heq] at hlt
    exact lt_irrefl _ hlt
  · have hboth := y.covers_value.of_between hyn hm hcast
    have hm1 : (m : ℚ) = m / (1 : Nat) := by rw [Nat.cast_one, div_one]
    rw [hm1] at hxm hboth
    have heq := hxm.unique hx hy hsign one_pos hboth
    rw [heq] at hlt
    exact lt_irrefl _ hlt

/-! ## Rounding integers -/

/-- Rounding to a whole number leaves at most a half, and exactly that only at an even number. -/
theorem roundQuotient_spec {n d : Nat} (hd : 0 < d) :
    2 * (roundQuotient n d * d) ≤ 2 * n + d ∧ 2 * n ≤ 2 * (roundQuotient n d * d) + d ∧
      (roundQuotient n d % 2 = 0 ∨
        2 * (roundQuotient n d * d) < 2 * n + d ∧ 2 * n < 2 * (roundQuotient n d * d) + d) := by
  have hdiv : n / d * d + n % d = n := Nat.div_add_mod' n d
  have hmod := Nat.mod_lt n hd
  have hsucc : (n / d + 1) * d = n / d * d + d := Nat.succ_mul _ _
  unfold roundQuotient
  dsimp only
  split
  · omega
  · split
    · rw [hsucc]
      omega
    · split
      · omega
      · rw [hsucc]
        omega

theorem roundQuotient_near {n d : Nat} (hd : 0 < d) :
    (roundQuotient n d : ℚ) - 1 / 2 ≤ n / d ∧ (n : ℚ) / d ≤ roundQuotient n d + 1 / 2 ∧
      (roundQuotient n d % 2 = 0 ∨
        (roundQuotient n d : ℚ) - 1 / 2 < n / d ∧ (n : ℚ) / d < roundQuotient n d + 1 / 2) := by
  have hpos : (0 : ℚ) < d := by exact_mod_cast hd
  obtain ⟨hlow, hhigh, htie⟩ := roundQuotient_spec (n := n) hd
  generalize roundQuotient n d = m at *
  have hlow' : (2 * (m * d) : ℚ) ≤ 2 * n + d := by exact_mod_cast hlow
  have hhigh' : (2 * n : ℚ) ≤ 2 * (m * d) + d := by exact_mod_cast hhigh
  rw [le_div_iff₀ hpos, div_le_iff₀ hpos, lt_div_iff₀ hpos, div_lt_iff₀ hpos]
  refine ⟨by linarith, by linarith, htie.imp_right fun ⟨hl, hh⟩ => ?_⟩
  have hl' : (2 * (m * d) : ℚ) < 2 * n + d := by exact_mod_cast hl
  have hh' : (2 * n : ℚ) < 2 * (m * d) + d := by exact_mod_cast hh
  exact ⟨by linarith, by linarith⟩

/-- Where an integer of 64 bits is measured. -/
theorem gauge_natural {n : Nat} (hn : 0 < n) (hbound : n < 2 ^ 64) :
    -1074 < gauge n 1 ∧ gauge n 1 < 12 ∧ (2 : ℚ) ^ 52 * 2 ^ gauge n 1 ≤ n ∧ (n : ℚ) < 2 ^ 53 * 2 ^ gauge n 1 := by
  have hpos : (1 : ℚ) ≤ n := by exact_mod_cast hn
  have hcast : (n : ℚ) < 2 ^ (64 : Int) := by exact_mod_cast hbound
  obtain ⟨hleast, hhigh, hlow⟩ := gauge_spec hn.ne' one_pos
  rw [Nat.cast_one, div_one] at hhigh hlow
  have hnormal : -1074 < gauge n 1 := by
    refine lt_of_le_of_ne hleast fun heq => ?_
    have hsmall : (2 : ℚ) ^ (gauge n 1 + 53) ≤ 2 ^ (0 : Int) := zpow_le_zpow_right₀ one_le_two (by omega)
    rw [zpow_zero] at hsmall
    linarith
  replace hlow := hlow.resolve_right hnormal.ne'
  have hexp : gauge n 1 + 52 < 64 := (zpow_lt_zpow_iff_right₀ one_lt_two).1 (hlow.trans_lt hcast)
  exact ⟨hnormal, by omega, by rwa [← two_zpow_add], by rwa [← two_zpow_add]⟩

/-- A double of 53 binary digits covers what is at most half a unit away, if it is not below the double. -/
theorem covers_of_near (hlow : x.significand - 1 / 2 ≤ v / x.ulp)
    (hhigh : v / x.ulp ≤ x.significand + 1 / 2) (hleast : 0x10000000000000 ≤ v / x.ulp)
    (htie : x.significand % 2 = 0 ∨ x.significand - 1 / 2 < v / x.ulp ∧ v / x.ulp < x.significand + 1 / 2) :
    x.Covers v := by
  have hpos := x.ulp_pos
  rw [le_div_iff₀ hpos] at hlow hleast
  rw [div_le_iff₀ hpos] at hhigh
  rw [lt_div_iff₀ hpos, div_lt_iff₀ hpos] at htie
  unfold Covers reach value
  split
  · refine ⟨?_, by linarith⟩
    split
    · rename_i hpower
      rw [hpower.1]
      norm_num at hleast ⊢
      linarith
    · linarith
  · rename_i hodd
    have hpower : x.significand ≠ 0x10000000000000 := by omega
    obtain ⟨hl, hh⟩ := htie.resolve_left hodd
    rw [if_neg fun h => hpower h.1]
    exact ⟨by linarith, by linarith⟩

/-- An integer of 64 bits is rounded to a double that covers it. -/
theorem exists_covers (negative : Bool) {n : Nat} (hn : 0 < n) (hbound : n < 2 ^ 64) :
    ∃ x, ofRatio? negative n 1 = some x ∧ x.negative = negative ∧ x.significand ≠ 0 ∧ x.Covers n := by
  obtain ⟨hnormal, hexp, hlow, hhigh⟩ := gauge_natural hn hbound
  have hdiv := scaled_div n 1 (gauge n 1)
  rw [Nat.cast_one, div_one] at hdiv
  have hpos : (0 : ℚ) < 2 ^ gauge n 1 := zpow_pos two_pos _
  have hdouble : (2 : ℚ) ^ (gauge n 1 + 1) = 2 * 2 ^ gauge n 1 := by rw [zpow_add_one₀ two_ne_zero, mul_comm]
  obtain ⟨hdown, hup, htie⟩ := roundQuotient_near (n := (scaled n 1 (gauge n 1)).1) (scaled_pos one_pos (gauge n 1))
  rw [ofRatio?_eq _ hn.ne']
  dsimp only
  rw [hdiv] at hdown hup htie
  generalize roundQuotient _ _ = m at *
  generalize gauge n 1 = g at *
  rw [← le_div_iff₀ hpos] at hlow
  rw [← div_lt_iff₀ hpos] at hhigh
  have hleast : 0x10000000000000 ≤ m := by
    by_contra hlt
    have hcast : (m : ℚ) + 1 ≤ 0x10000000000000 := by exact_mod_cast Nat.lt_of_not_le hlt
    linarith
  have hgreatest : m ≤ 0x20000000000000 := by
    by_contra hlt
    have hcast : (0x20000000000000 : ℚ) + 1 ≤ m := by exact_mod_cast Nat.lt_of_not_le hlt
    linarith
  split
  · rename_i hcarry
    rw [hcarry] at hdown
    rw [ofParts?, dif_pos ⟨by decide, by omega, by omega, .inl le_rfl⟩]
    refine ⟨_, rfl, rfl, by dsimp only; omega, ?_⟩
    unfold Covers reach value ulp
    dsimp only
    rw [le_div_iff₀ hpos] at hdown
    rw [div_lt_iff₀ hpos] at hhigh
    rw [if_pos (by decide), if_pos ⟨rfl, by omega⟩, hdouble]
    norm_num at hdown hhigh ⊢
    exact ⟨by linarith, by linarith⟩
  · rename_i hcarry
    rw [ofParts?, dif_pos ⟨by omega, by omega, by omega, .inl hleast⟩]
    refine ⟨_, rfl, rfl, by dsimp only; omega, covers_of_near hdown hup ?_ htie⟩
    exact le_trans (by norm_num) hlow

/-! ## The order of nearest doubles -/

/-- Units count the value. -/
theorem cast_magnitude (x : Binary64) : (x.magnitude : ℚ) = x.value * 2 ^ (1074 : Int) := by
  have hexp : ((x.exponent + 1074).toNat : Int) = x.exponent + 1074 := Int.toNat_of_nonneg (by have := x.normal.2.1; omega)
  rw [magnitude, Nat.cast_mul, cast_twoTo, ← zpow_natCast, hexp, zpow_add₀ two_ne_zero, value, ulp, mul_assoc]

theorem magnitude_le (h : x.value ≤ y.value) : x.magnitude ≤ y.magnitude := by
  have hcast : (x.magnitude : ℚ) ≤ y.magnitude := by
    rw [cast_magnitude, cast_magnitude]
    exact mul_le_mul_of_nonneg_right h (zpow_pos two_pos _).le
  exact_mod_cast hcast

/-- Every integer of 64 bits has a nearest double, whose magnitude grows with the integer. -/
theorem exists_ofRatio? (negative : Bool) {n : Nat} (hbound : n < 2 ^ 64) :
    ∃ x, ofRatio? negative n 1 = some x ∧ x.negative = negative := by
  rcases Nat.eq_zero_or_pos n with rfl | hn
  · exact ⟨zero negative, rfl, rfl⟩
  · obtain ⟨x, hx, hsign, -, -⟩ := exists_covers negative hn hbound
    exact ⟨x, hx, hsign⟩

theorem magnitude_le_of_ofRatio? {negative : Bool} {m n : Nat} (hle : m ≤ n) (hbound : n < 2 ^ 64)
    (hx : ofRatio? negative m 1 = some x) (hy : ofRatio? negative n 1 = some y) : x.magnitude ≤ y.magnitude := by
  rcases Nat.eq_zero_or_pos m with rfl | hm
  · cases hx
    exact Nat.zero_le _
  · obtain ⟨x', hx', hxsign, hxne, hxm⟩ := exists_covers negative hm (hle.trans_lt hbound)
    obtain ⟨y', hy', hysign, hyne, hyn⟩ := exists_covers negative (hm.trans_le hle) hbound
    cases hx.symm.trans hx'
    cases hy.symm.trans hy'
    exact magnitude_le (hxm.value_le hxne hyne (hxsign.trans hysign.symm) hyn hle)

theorem eq_of_value_eq (hx : x.significand ≠ 0) (hy : y.significand ≠ 0) (hsign : x.negative = y.negative)
    (h : x.value = y.value) : x = y := by
  obtain ⟨num, den, hden, hvalue⟩ := x.value_eq_div
  exact Covers.unique hx hy hsign hden (hvalue ▸ x.covers_value) (hvalue ▸ h ▸ y.covers_value)

theorem eq_of_magnitude_eq (hx : x.significand ≠ 0) (hy : y.significand ≠ 0) (hsign : x.negative = y.negative)
    (h : x.magnitude = y.magnitude) : x = y := by
  have hcast : (x.magnitude : ℚ) = y.magnitude := by rw [h]
  rw [cast_magnitude, cast_magnitude] at hcast
  exact eq_of_value_eq hx hy hsign (mul_right_cancel₀ (zpow_pos two_pos _).ne' hcast)

/-- No double covers two integers up to `2 ^ 53`: it would have a unit of at least two, and be greater. -/
theorem Covers.eq_of_small {m n : Nat} (hm : x.Covers m) (hn : x.Covers n) (hsmall : n ≤ 2 ^ 53)
    (hle : m ≤ n) : m = n := by
  by_contra hne
  have hcast : (m : ℚ) + 1 ≤ n := by exact_mod_cast lt_of_le_of_ne hle hne
  have hbound : (n : ℚ) ≤ 2 ^ 53 := by exact_mod_cast hsmall
  have hlow := hm.le
  have hhigh := hn.ge
  have hreach := x.reach_le
  have hunit : 0 ≤ x.exponent := by
    by_contra hneg
    have : x.ulp ≤ 2 ^ (-1 : Int) := zpow_le_zpow_right₀ one_le_two (by omega)
    norm_num at this
    linarith
  have hnormal := x.normal.2.2.2.resolve_right (by omega)
  have hcoarse : ∀ k : Nat, (k : Int) ≤ x.exponent → (2 : ℚ) ^ k ≤ x.ulp := fun k hk => by
    rw [← zpow_natCast]
    exact zpow_le_zpow_right₀ one_le_two hk
  unfold value at hlow hhigh
  rcases Nat.eq_or_lt_of_le hnormal with hpower | hlarge
  · rw [reach, if_pos ⟨hpower.symm, by omega⟩, ← hpower] at hlow
    rw [← hpower] at hhigh
    norm_num at hlow hhigh
    have hexp : 1 ≤ x.exponent := by
      by_contra hzero
      have hone : x.ulp = 1 := by rw [ulp, show x.exponent = 0 by omega, zpow_zero]
      rw [hone] at hlow hhigh
      linarith
    have := hcoarse 1 hexp
    linarith
  · have hmore : (0x10000000000000 : ℚ) + 1 ≤ x.significand := by exact_mod_cast hlarge
    rcases Int.le_iff_eq_or_lt.1 hunit with hzero | hexp
    · have hone : x.ulp = 1 := by rw [ulp, ← hzero, zpow_zero]
      rw [hone, mul_one] at hlow hhigh
      rw [hone] at hreach
      have hmlow : x.significand ≤ m := by
        have : (x.significand : ℚ) < m + 1 := by linarith
        exact Nat.lt_succ_iff.1 (by exact_mod_cast this)
      have hnhigh : n ≤ x.significand := by
        have : (n : ℚ) < x.significand + 1 := by linarith
        exact Nat.lt_succ_iff.1 (by exact_mod_cast this)
      omega
    · have htwo := hcoarse 1 (by omega)
      have := mul_le_mul_of_nonneg_right hmore x.ulp_pos.le
      linarith

theorem magnitude_ne_zero (hx : x.significand ≠ 0) : x.magnitude ≠ 0 :=
  (Nat.mul_pos (Nat.pos_of_ne_zero hx) (twoTo_pos _)).ne'

/-- Up to `2 ^ 53` integers are told apart by their doubles. -/
theorem eq_of_ofRatio?_small {negative : Bool} {m n : Nat} (hm : m ≤ 2 ^ 53) (hn : n ≤ 2 ^ 53)
    (hx : ofRatio? negative m 1 = some x) (hy : ofRatio? negative n 1 = some y)
    (h : x.magnitude = y.magnitude) : m = n := by
  wlog hle : m ≤ n generalizing m n x y
  · exact (this hn hm hy hx h.symm (Nat.le_of_not_le hle)).symm
  rcases Nat.eq_zero_or_pos n with rfl | hpos
  · exact Nat.le_zero.1 hle
  · obtain ⟨y', hy', hysign, hyne, hyn⟩ := exists_covers negative hpos (hn.trans_lt (by decide))
    cases hy.symm.trans hy'
    rcases Nat.eq_zero_or_pos m with rfl | hmpos
    · cases hx
      exact absurd h.symm (magnitude_ne_zero hyne)
    · obtain ⟨x', hx', hxsign, hxne, hxm⟩ := exists_covers negative hmpos (hm.trans_lt (by decide))
      cases hx.symm.trans hx'
      obtain rfl := eq_of_magnitude_eq hxne hyne (hxsign.trans hysign.symm) h
      exact hxm.eq_of_small hyn hn hle

theorem eq_zero_of_ofRatio?_small {negative : Bool} {n : Nat} (hn : n ≤ 2 ^ 53)
    (hx : ofRatio? negative n 1 = some x) (h : x.magnitude = 0) : n = 0 :=
  eq_of_ofRatio?_small hn (Nat.zero_le _) hx rfl h

end Binary64

/-! ## Numbers of documents -/

namespace Number

/-- A number as documents have it: an integer of 64 bits, with or without sign, or a double. -/
def InRange : Number → Prop
  | int i => -0x8000000000000000 ≤ i ∧ i < 0x10000000000000000
  | float _ => True

/-- The nearest double, in units. -/
def nearest (n : Number) : Int := (n.toBinary64?.map Binary64.units).getD 0

theorem exists_toBinary64? {n : Number} (h : n.InRange) : ∃ x, n.toBinary64? = some x := by
  cases n with
  | float x => exact ⟨x, rfl⟩
  | int i =>
    obtain ⟨hlow, hhigh⟩ := h
    obtain ⟨x, hx, -⟩ := Binary64.exists_ofRatio? (decide (i < 0)) (n := i.natAbs) (by omega)
    exact ⟨x, hx⟩

/-- The nearest double of an integer. -/
theorem nearest_int {i : Int} (hlow : -0x8000000000000000 ≤ i) (hhigh : i < 0x10000000000000000) :
    ∃ x, Binary64.ofRatio? (decide (i < 0)) i.natAbs 1 = some x ∧
      (int i).nearest = if i < 0 then -(x.magnitude : Int) else x.magnitude := by
  obtain ⟨x, hx, hsign⟩ := Binary64.exists_ofRatio? (decide (i < 0)) (n := i.natAbs) (by omega)
  refine ⟨x, hx, ?_⟩
  have hround : (int i).toBinary64? = some x := hx
  rw [nearest, hround, Option.map_some, Option.getD_some, Binary64.units, hsign]
  by_cases hneg : i < 0 <;> simp [hneg]

/-- A greater integer has no smaller double. -/
theorem nearest_le {i j : Int} (hi : (int i).InRange) (hj : (int j).InRange) (hle : i ≤ j) :
    (int i).nearest ≤ (int j).nearest := by
  obtain ⟨x, hx, hxi⟩ := nearest_int hi.1 hi.2
  obtain ⟨y, hy, hyj⟩ := nearest_int hj.1 hj.2
  obtain ⟨hilow, hihigh⟩ := hi
  obtain ⟨hjlow, hjhigh⟩ := hj
  rw [hxi, hyj]
  by_cases hin : i < 0
  · by_cases hjn : j < 0
    · rw [decide_eq_true hin] at hx
      rw [decide_eq_true hjn] at hy
      have := Binary64.magnitude_le_of_ofRatio? (by omega) (by omega) hy hx
      rw [if_pos hin, if_pos hjn]
      omega
    · rw [if_pos hin, if_neg hjn]
      omega
  · have hjn : ¬j < 0 := by omega
    rw [decide_eq_false hin] at hx
    rw [decide_eq_false hjn] at hy
    have := Binary64.magnitude_le_of_ofRatio? (by omega) (by omega) hx hy
    rw [if_neg hin, if_neg hjn]
    omega

/-- Up to `2 ^ 53` integers have doubles of their own. -/
theorem eq_of_nearest_eq {i j : Int} (hi : i.natAbs ≤ 2 ^ 53) (hj : j.natAbs ≤ 2 ^ 53)
    (h : (int i).nearest = (int j).nearest) : i = j := by
  obtain ⟨x, hx, hxi⟩ := nearest_int (i := i) (by omega) (by omega)
  obtain ⟨y, hy, hyj⟩ := nearest_int (i := j) (by omega) (by omega)
  rw [hxi, hyj] at h
  by_cases hin : i < 0
  · rw [decide_eq_true hin] at hx
    rw [if_pos hin] at h
    by_cases hjn : j < 0
    · rw [decide_eq_true hjn] at hy
      rw [if_pos hjn] at h
      have := Binary64.eq_of_ofRatio?_small hi hj hx hy (by omega)
      omega
    · rw [if_neg hjn] at h
      have := Binary64.eq_zero_of_ofRatio?_small hi hx (by omega)
      omega
  · rw [decide_eq_false hin] at hx
    rw [if_neg hin] at h
    by_cases hjn : j < 0
    · rw [decide_eq_true hjn] at hy
      rw [if_pos hjn] at h
      have := Binary64.eq_zero_of_ofRatio?_small hj hy (by omega)
      omega
    · rw [decide_eq_false hjn] at hy
      rw [if_neg hjn] at h
      have := Binary64.eq_of_ofRatio?_small hi hj hx hy (by omega)
      omega

end Number

end NestedResources
