import NestedResources.Number.Shortest
import NestedResources.Proofs.Number.Rounding

/-!
# Shortest digits

Whatever digits the search for a double stops at, the double covers the number they denote
(`Binary64.covers_shortest`). The search does stop: with seventeen digits the grid is so much finer than
the doubles that the neighbour below is always close enough (`Binary64.exists_onGrid?`).
-/
namespace NestedResources

/-- The number that digits denote. -/
def Digits.value (d : Digits) : ℚ := d.digits * 10 ^ d.exponent

namespace Binary64

variable {x : Binary64} {c : Nat} {k : Int} {v : ℚ}

theorem covers_of_lt (hlow : x.value - x.reach < v) (hhigh : v < x.value + x.ulp / 2) : x.Covers v := by
  unfold Covers
  split
  · exact ⟨hlow.le, hhigh.le⟩
  · exact ⟨hlow, hhigh⟩

theorem ratio_pos (x : Binary64) : (0 : ℚ) < x.ratio.2 := by exact_mod_cast twoTo_pos _

theorem ratio_div (x : Binary64) : (x.ratio.1 : ℚ) / x.ratio.2 = x.value := by
  rw [value, ulp, ← twoTo_div_twoTo, ratio, Nat.cast_mul, mul_div_assoc]

/-- How far it is to the midpoint below, in quarters of the unit of the ratio. -/
def reachQuarters (x : Binary64) : Nat :=
  if x.significand = 0x10000000000000 ∧ -1074 < x.exponent then twoTo x.exponent.toNat
  else 2 * twoTo x.exponent.toNat

theorem ulp_eq_div (x : Binary64) : x.ulp = twoTo x.exponent.toNat / x.ratio.2 :=
  (twoTo_div_twoTo x.exponent).symm

theorem reach_eq_div (x : Binary64) : x.reach = x.reachQuarters / (4 * x.ratio.2) := by
  have hden := x.ratio_pos
  rw [reach, reachQuarters, ulp_eq_div]
  split
  · field_simp
  · push_cast
    field_simp
    ring

/-- The midpoint below as a quotient of whole numbers. -/
theorem value_sub_reach (hx : x.significand ≠ 0) :
    x.value - x.reach = (4 * x.ratio.1 - x.reachQuarters : Nat) / (4 * x.ratio.2 : Nat) := by
  have hden := x.ratio_pos
  have hle : x.reachQuarters ≤ 4 * x.ratio.1 := by
    have hunit := Nat.mul_le_mul_right (twoTo x.exponent.toNat) (Nat.one_le_iff_ne_zero.2 hx)
    rw [reachQuarters, ratio]
    split <;> omega
  rw [reach_eq_div, ← ratio_div, Nat.cast_sub hle]
  push_cast
  field_simp

/-- The midpoint above as a quotient of whole numbers. -/
theorem value_add_half (x : Binary64) :
    x.value + x.ulp / 2 = (4 * x.ratio.1 + 2 * twoTo x.exponent.toNat : Nat) / (4 * x.ratio.2 : Nat) := by
  have hden := x.ratio_pos
  rw [ulp_eq_div, ← ratio_div]
  push_cast
  field_simp
  ring

/-- The test in whole numbers is the one in fractions. -/
theorem readsBack_iff (hx : x.significand ≠ 0) : x.readsBack c k = true ↔ x.Covers (c * 10 ^ k) := by
  have hscale : (0 : ℚ) < tenTo (-k).toNat := by exact_mod_cast tenTo_pos _
  have hfour : (0 : ℚ) < (4 * x.ratio.2 : Nat) := by
    have hden := x.ratio_pos
    push_cast
    linarith
  have hpoint : (c : ℚ) * 10 ^ k = (c * tenTo k.toNat : Nat) / (tenTo (-k).toNat : Nat) := by
    rw [← tenTo_div_tenTo, Nat.cast_mul, mul_div_assoc]
  have hcross : c * tenTo k.toNat * (4 * x.ratio.2) = 4 * c * tenTo k.toNat * x.ratio.2 := by ring
  unfold Covers
  rw [value_sub_reach hx, value_add_half, hpoint, div_le_div_iff₀ hfour hscale, div_le_div_iff₀ hscale hfour,
    div_lt_div_iff₀ hfour hscale, div_lt_div_iff₀ hscale hfour]
  norm_cast
  rw [hcross]
  unfold readsBack
  change (if _ then decide ((4 * x.ratio.1 - x.reachQuarters) * _ ≤ _) && _ else _) = true ↔ _
  split <;> rw [Bool.and_eq_true, decide_eq_true_eq, decide_eq_true_eq] <;> rfl

theorem roundQuotient_cases (n d : Nat) : roundQuotient n d = n / d ∨ roundQuotient n d = n / d + 1 := by
  unfold roundQuotient
  dsimp only
  split
  · exact .inl rfl
  · split
    · exact .inr rfl
    · split
      · exact .inl rfl
      · exact .inr rfl

theorem readsBack_of_onGrid? (h : x.onGrid? k = some c) : x.readsBack c k = true := by
  unfold onGrid? at h
  dsimp only at h
  split at h
  · rename_i hfirst hsecond
    cases h
    rcases roundQuotient_cases (x.ratio.1 * tenTo (-k).toNat) (x.ratio.2 * tenTo k.toNat) with h | h
    · rw [h]; exact hfirst
    · rw [h]; exact hsecond
  · rename_i hfirst _
    cases h
    exact hfirst
  · rename_i _ hsecond
    cases h
    exact hsecond
  · cases h

/-- The number below on a grid, and how near it is. -/
theorem floor_bounds (x : Binary64) (k : Int) :
    let c := x.ratio.1 * tenTo (-k).toNat / (x.ratio.2 * tenTo k.toNat)
    (c : ℚ) * 10 ^ k ≤ x.value ∧ x.value < (c + 1) * 10 ^ k := by
  intro c
  have hten : (0 : ℚ) < 10 ^ k := zpow_pos (by norm_num) k
  have hd : 0 < x.ratio.2 * tenTo k.toNat := Nat.mul_pos (twoTo_pos _) (tenTo_pos _)
  have hdpos : (0 : ℚ) < (x.ratio.2 * tenTo k.toNat : Nat) := by exact_mod_cast hd
  have hquotient : ((x.ratio.1 * tenTo (-k).toNat : Nat) : ℚ) / (x.ratio.2 * tenTo k.toNat : Nat)
      = x.value / 10 ^ k := by
    rw [← tenTo_div_tenTo, ← ratio_div]
    push_cast
    field_simp
  rw [← le_div_iff₀ hten, ← div_lt_iff₀ hten, ← hquotient, le_div_iff₀ hdpos, div_lt_iff₀ hdpos]
  constructor
  · exact_mod_cast Nat.div_mul_le_self _ _
  · have := Nat.lt_div_mul_add (a := x.ratio.1 * tenTo (-k).toNat) hd
    rw [← Nat.succ_mul] at this
    exact_mod_cast this

/-- The leading digit of a magnitude does not stand above it. -/
theorem zpow_leadingExponent_le (hx : x.significand ≠ 0) : (10 : ℚ) ^ x.leadingExponent ≤ x.value := by
  have hten : (10 : ℚ) ≠ 0 := by norm_num
  have hshift : x.value * 10 ^ 400 = (x.ratio.1 * tenTo 400 : Nat) / x.ratio.2 := by
    rw [← ratio_div, Nat.cast_mul, cast_tenTo, div_mul_eq_mul_div]
  have hleast : (1 : ℚ) ≤ x.value * 10 ^ 400 := by
    have hpower : (2 : ℚ) ^ (-1074 : Int) ≤ x.value :=
      (zpow_le_zpow_right₀ one_le_two x.normal.2.1).trans (ulp_le_value hx)
    have hcut : (2 : ℚ) ^ 1074 ≤ 10 ^ 400 := by
      have : 2 ^ 1074 ≤ 10 ^ 400 := by decide +kernel
      exact_mod_cast this
    calc (1 : ℚ) = 2 ^ (-1074 : Int) * 2 ^ 1074 := by
          rw [← zpow_natCast, ← zpow_add₀ two_ne_zero]
          rfl
      _ ≤ x.value * 10 ^ 400 := mul_le_mul hpower hcut (by positivity) (hpower.trans' (by positivity))
  generalize hfloor : x.ratio.1 * tenTo 400 / x.ratio.2 = floor
  have hne : floor ≠ 0 := by
    have hden := x.ratio_pos
    rw [hshift, one_le_div hden] at hleast
    have hle : x.ratio.2 ≤ x.ratio.1 * tenTo 400 := by exact_mod_cast hleast
    exact hfloor ▸ (Nat.div_pos hle (twoTo_pos _)).ne'
  have hlead : x.leadingExponent + 400 = ((toString floor).length - 1 : Nat) := by
    have hpos : 0 < (toString floor).length := by
      rw [length_toString]
      exact Nat.length_toDigits_pos
    have hdef : x.leadingExponent = (toString floor).length - 401 := by rw [← hfloor]; rfl
    omega
  have hle : (floor : ℚ) ≤ x.value * 10 ^ 400 := by
    rw [hshift, ← hfloor]
    exact Nat.cast_div_le
  have hpower : (10 : ℚ) ^ (x.leadingExponent + 400) ≤ x.value * 10 ^ 400 := by
    rw [hlead, zpow_natCast]
    exact le_trans (by exact_mod_cast ten_pow_length_le hne) hle
  rw [zpow_add₀ hten] at hpower
  exact le_of_mul_le_mul_right hpower (by positivity)

/-- With seventeen digits the number below reads back. -/
theorem exists_onGrid? (hx : x.significand ≠ 0) : ∃ c, x.onGrid? (x.leadingExponent - 17) = some c := by
  generalize hk : x.leadingExponent - 17 = k
  have hpos := x.ulp_pos
  obtain ⟨hlow, hhigh⟩ := x.floor_bounds k
  have hgrid : (10 : ℚ) ^ k * 10 ^ 17 ≤ x.value := by
    rw [← zpow_natCast, ← zpow_add₀ (by norm_num), ← hk]
    simpa using zpow_leadingExponent_le hx
  have hvalue : x.value < 2 ^ 53 * x.ulp := by
    have hlt : (x.significand : ℚ) < 2 ^ 53 := by exact_mod_cast x.normal.1
    exact mul_lt_mul_of_pos_right hlt hpos
  -- A step of the grid is less than a tenth of the unit, and the midpoint below is a quarter of it away.
  have hquarter : x.ulp / 4 ≤ x.reach := by
    unfold reach
    split <;> linarith
  generalize hc : x.ratio.1 * tenTo (-k).toNat / (x.ratio.2 * tenTo k.toNat) = c at hlow hhigh
  have hreads : x.readsBack c k = true := by
    refine (readsBack_iff hx).2 (covers_of_lt ?_ (by linarith))
    norm_num at hgrid hvalue
    linarith
  unfold onGrid?
  dsimp only
  rw [hc, hreads]
  cases x.readsBack (c + 1) k
  · exact ⟨_, rfl⟩
  · exact ⟨_, rfl⟩

theorem value_stripZeros (fuel c : Nat) (k : Int) : (stripZeros fuel c k).value = c * 10 ^ k := by
  induction fuel generalizing c k with
  | zero => rfl
  | succ fuel ih =>
    unfold stripZeros
    split
    · rename_i hzero
      have hdigits : (c : ℚ) = (c / 10 : Nat) * 10 := by
        have : c = c / 10 * 10 := by omega
        exact_mod_cast this
      rw [ih, hdigits, zpow_add_one₀ (by norm_num)]
      ring
    · rfl

/-- The search stops at the seventeenth digit, if not before, and with digits that read back. -/
theorem covers_searchDigits (hx : x.significand ≠ 0) (fuel count : Nat) (h : fuel + count = 18)
    (hcount : count ≤ 17) : x.Covers (searchDigits x x.leadingExponent fuel count).value := by
  induction fuel generalizing count with
  | zero => omega
  | succ fuel ih =>
    unfold searchDigits
    dsimp only
    split
    · rename_i c hgrid
      rw [value_stripZeros]
      exact (readsBack_iff hx).1 (readsBack_of_onGrid? hgrid)
    · rename_i hgrid
      refine ih (count + 1) (by omega) ?_
      by_contra hlast
      obtain rfl : count = 17 := by omega
      obtain ⟨c, hc⟩ := exists_onGrid? hx
      cases hgrid.symm.trans hc

/-- A double covers the number that its shortest digits denote. -/
theorem covers_shortest (hx : x.significand ≠ 0) : x.Covers x.shortest.value := by
  rw [shortest, if_neg hx]
  exact covers_searchDigits hx 18 0 rfl (by decide)

end Binary64

end NestedResources
