import Mathlib.Tactic.IntervalCases
import NestedResources.Timestamp

/-!
# Days and dates

Every day has a date of the calendar, and the date has that day (`CivilDate.toDay_ofDay`). Years begin in
March here, so that leap days end them: a day of an era of 400 years is a century, a cycle of four years in
it, a year of the cycle and a day of the year.
-/
namespace NestedResources

/-- A day of an era by its century, its cycle of four years, its year in the cycle and its place in the year. -/
structure EraDay where
  century : Int
  cycle : Int
  year : Int
  day : Int
  century_mem : 0 ≤ century ∧ century ≤ 3
  cycle_mem : 0 ≤ cycle ∧ cycle ≤ 24
  year_mem : 0 ≤ year ∧ year ≤ 3
  day_mem : 0 ≤ day ∧ day ≤ 365
  /-- A leap day ends a cycle, and of the cycles that end a century only the last one of the era. -/
  leap : day = 365 → year = 3 ∧ (cycle = 24 → century = 3)

namespace EraDay

variable (e : EraDay)

/-- The days of the era before this one. -/
def index : Int := 36524 * e.century + 1461 * e.cycle + 365 * e.year + e.day

/-- The years of the era before this one. -/
def yearOfEra : Int := 100 * e.century + 4 * e.cycle + e.year

/-- The month, counted from March. -/
def month : Int := (5 * e.day + 2) / 153

/-- The day of the month, counted from one. -/
def dayOfMonth : Int := e.day - (153 * e.month + 2) / 5 + 1

theorem exists_index_eq {n : Int} (hlow : 0 ≤ n) (hhigh : n ≤ 146096) : ∃ e : EraDay, e.index = n := by
  obtain ⟨c, r, hr, hcentury, hrest, hlong⟩ : ∃ c r : Int, n = 36524 * c + r ∧ (0 ≤ c ∧ c ≤ 3) ∧ 0 ≤ r ∧
      (r ≤ 36523 ∨ c = 3 ∧ r = 36524) :=
    ⟨min 3 (n / 36524), n - 36524 * min 3 (n / 36524), by omega⟩
  obtain ⟨s, hs⟩ : ∃ s : Int, s = min 3 (r % 1461 / 365) := ⟨_, rfl⟩
  exact ⟨⟨c, r / 1461, s, r % 1461 - 365 * s, hcentury, by omega, by omega, by omega, by omega⟩,
    by rw [index]; dsimp only; omega⟩

/-- Dividing out the leap days leaves years of 365 days. -/
theorem div_index : (e.index - e.index / 1460 + e.index / 36524 - e.index / 146096) / 365 = e.yearOfEra := by
  obtain ⟨c, q, s, t, hc, hq, hs, ht, hleap⟩ := e
  rw [index, yearOfEra]
  dsimp only
  generalize hn : 36524 * c + 1461 * q + 365 * s + t = n
  have hcentury : n / 36524 - n / 146096 = c := by
    rcases Int.lt_or_le n 146096 with hlt | hle
    · have hnext : n < 36524 * (c + 1) := by omega
      have hzero := Int.ediv_eq_zero_of_lt (by omega : 0 ≤ n) hlt
      omega
    · obtain rfl : n = 146096 := by omega
      omega
  have hcycle : n / 1460 = 25 * c + q ∧ t ≤ 364 ∨ n / 1460 = 25 * c + q + 1 ∧ 0 < t := by
    rcases Int.lt_or_le n (1460 * (25 * c + q + 1)) with hlt | hle
    · exact .inl ⟨by omega, by omega⟩
    · exact .inr ⟨by omega, by omega⟩
  rcases hcycle with ⟨hdays, hbound⟩ | ⟨hdays, hbound⟩
  · have hyears : n - n / 1460 + n / 36524 - n / 146096 = 365 * (100 * c + 4 * q + s) + t := by omega
    rw [hyears]
    omega
  · have hyears : n - n / 1460 + n / 36524 - n / 146096 = 365 * (100 * c + 4 * q + s) + (t - 1) := by omega
    rw [hyears]
    omega

theorem yearOfEra_mem : 0 ≤ e.yearOfEra ∧ e.yearOfEra ≤ 399 := by
  have := e.century_mem
  have := e.cycle_mem
  have := e.year_mem
  rw [yearOfEra]
  omega

/-- The days of the years before are taken off. -/
theorem index_sub : e.index - (365 * e.yearOfEra + e.yearOfEra / 4 - e.yearOfEra / 100) = e.day := by
  have hcentury := e.century_mem
  have hcycle := e.cycle_mem
  have hyear := e.year_mem
  have hfour : e.yearOfEra / 4 = 25 * e.century + e.cycle := by rw [yearOfEra]; omega
  have hhundred : e.yearOfEra / 100 = e.century := by rw [yearOfEra]; omega
  rw [hfour, hhundred, index, yearOfEra]
  omega

theorem month_mem : 0 ≤ e.month ∧ e.month ≤ 11 := by
  have := e.day_mem
  rw [month]
  omega

end EraDay

namespace CivilDate

/-- The date of a day: months from March on, January and February in the year that begins. -/
def ofEra (era : Int) (e : EraDay) : CivilDate :=
  let civil := if e.month < 10 then e.month + 3 else e.month - 9
  ⟨e.yearOfEra + era * 400 + (if civil ≤ 2 then 1 else 0), civil.toNat, e.dayOfMonth.toNat⟩

theorem exists_ofDay_eq (day : Int) :
    ∃ era e, day + 719468 = era * 146097 + EraDay.index e ∧ ofDay day = ofEra era e := by
  obtain ⟨e, he⟩ := EraDay.exists_index_eq (n := (day + 719468) % 146097) (by omega) (by omega)
  have hindex : day + 719468 - (day + 719468) / 146097 * 146097 = e.index := by rw [he]; omega
  refine ⟨(day + 719468) / 146097, e, by omega, ?_⟩
  simp only [ofDay, ofEra, hindex, e.div_index, e.index_sub]
  rfl

variable (era : Int) {e : EraDay}

theorem dayOfMonth_pos : 0 < e.dayOfMonth := by
  have := e.day_mem
  rw [EraDay.dayOfMonth, EraDay.month]
  omega

/-- The year that a date counts its days in, and its month counted from March. -/
theorem ofEra_fields (e : EraDay) : (if (ofEra era e).month ≤ 2 then (ofEra era e).year - 1 else (ofEra era e).year)
      = e.yearOfEra + era * 400 ∧
    (((ofEra era e).month : Int) + 9) % 12 = e.month ∧ ((ofEra era e).day : Int) = e.dayOfMonth := by
  have hmonth := e.month_mem
  have hpos := dayOfMonth_pos (e := e)
  unfold ofEra
  dsimp only
  generalize e.month = m at *
  refine ⟨?_, ?_, by omega⟩
  all_goals split <;> omega

theorem toDay_ofEra : (ofEra era e).toDay = era * 146097 + e.index - 719468 := by
  obtain ⟨hyear, hmonth, hday⟩ := ofEra_fields era e
  have hyears := e.yearOfEra_mem
  have hera : (e.yearOfEra + era * 400) / 400 = era := by omega
  have hin : e.yearOfEra + era * 400 - era * 400 = e.yearOfEra := by omega
  have hsub := e.index_sub
  have hmonths : e.dayOfMonth = e.day - (153 * e.month + 2) / 5 + 1 := rfl
  simp only [toDay, hyear, hmonth, hday, hera, hin]
  omega

/-- The date of a day has this day. -/
theorem toDay_ofDay (day : Int) : (ofDay day).toDay = day := by
  obtain ⟨era, e, hday, hdate⟩ := exists_ofDay_eq day
  rw [hdate, toDay_ofEra]
  omega

/-- Months are as long as the formula for the days before them says, except for February. -/
theorem daysInMonth_eq (year : Int) {m : Int} (hlow : 0 ≤ m) (hhigh : m ≤ 10) :
    daysInMonth year (if m < 10 then m + 3 else m - 9).toNat
      = ((153 * (m + 1) + 2) / 5 - (153 * m + 2) / 5).toNat := by
  interval_cases m <;> rfl

theorem le_daysInMonth (year : Int) (month : Nat) : 28 ≤ daysInMonth year month := by
  unfold daysInMonth
  split
  · split <;> omega
  · split <;> omega

theorem isLeapYear_of_leap (h : e.day = 365) : isLeapYear (e.yearOfEra + era * 400 + 1) = true := by
  obtain ⟨hyear, hcentury⟩ := e.leap h
  have hc := e.century_mem
  have hq := e.cycle_mem
  have hfour : (e.yearOfEra + era * 400 + 1) % 4 = 0 := by rw [EraDay.yearOfEra]; omega
  have hsecular : (e.yearOfEra + era * 400 + 1) % 100 ≠ 0 ∨ (e.yearOfEra + era * 400 + 1) % 400 = 0 := by
    rw [EraDay.yearOfEra]
    omega
  simpa [isLeapYear, hfour] using hsecular

/-- No day is behind the end of its month. -/
theorem day_le_daysInMonth : (ofEra era e).day ≤ daysInMonth (ofEra era e).year (ofEra era e).month := by
  obtain ⟨hlow, hhigh⟩ := e.month_mem
  have hmonth : e.month = (5 * e.day + 2) / 153 := rfl
  have hday : e.dayOfMonth = e.day - (153 * e.month + 2) / 5 + 1 := rfl
  have hmem := e.day_mem
  unfold ofEra
  dsimp only
  rcases Int.lt_or_le e.month 11 with hlt | hfebruary
  · rw [daysInMonth_eq _ hlow (by omega)]
    omega
  · have hm : e.month = 11 := by omega
    rw [hm] at hday ⊢
    rw [hday]
    by_cases hleap : e.day = 365
    · have hyear := isLeapYear_of_leap era hleap
      simp [daysInMonth, hyear, hleap]
    · have hbound : (e.day - (153 * 11 + 2) / 5 + 1).toNat ≤ 28 := by omega
      exact hbound.trans (le_daysInMonth _ _)

theorem daysInMonth_le (year : Int) (month : Nat) : daysInMonth year month ≤ 31 := by
  unfold daysInMonth
  split
  · split <;> omega
  · split <;> omega

theorem month_ofDay (day : Int) : 1 ≤ (ofDay day).month ∧ (ofDay day).month ≤ 12 := by
  obtain ⟨era, e, -, hdate⟩ := exists_ofDay_eq day
  have hmonth := e.month_mem
  rw [hdate]
  unfold ofEra
  dsimp only
  split <;> omega

theorem day_ofDay (day : Int) :
    1 ≤ (ofDay day).day ∧ (ofDay day).day ≤ daysInMonth (ofDay day).year (ofDay day).month := by
  obtain ⟨era, e, -, hdate⟩ := exists_ofDay_eq day
  have hpos := dayOfMonth_pos (e := e)
  rw [hdate]
  refine ⟨?_, day_le_daysInMonth era⟩
  unfold ofEra
  dsimp only
  omega

/-- The date of a day is in the calendar if its year is. -/
theorem isValid_ofDay {day : Int} (hlow : leastYear ≤ (ofDay day).year) (hhigh : (ofDay day).year ≤ greatestYear) :
    (ofDay day).isValid = true := by
  simp [isValid, hlow, hhigh, month_ofDay, day_ofDay]

end CivilDate

end NestedResources
