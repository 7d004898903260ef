import NestedResources.Proofs.Number.Numeral
import NestedResources.Proofs.Text
import NestedResources.Proofs.Timestamp.Calendar

/-!
# Texts of instants

The text of an instant names it again, leap seconds and fractions included, if its year has four digits
(`Timestamp.ofText?_text`). Other years are written with a sign, which no reader of texts with a time takes
(`Timestamp.ofText?_text_eq_none`).
-/
namespace NestedResources

namespace Numeral

/-- Digits stand for less than the power of ten that they are too short for. -/
theorem accumulate_lt {cs : List Char} {acc n : Nat} (h : accumulate acc cs = some n) : n < (acc + 1) * 10 ^ cs.length := by
  induction cs generalizing acc with
  | nil =>
    cases h
    simp
  | cons c cs ih =>
    rw [accumulate] at h
    split at h
    · rename_i d hd
      have hdigit := digitValue?_lt hd
      calc n < (acc * 10 + d + 1) * 10 ^ cs.length := ih h
        _ ≤ ((acc + 1) * 10) * 10 ^ cs.length := Nat.mul_le_mul_right _ (by omega)
        _ = (acc + 1) * 10 ^ (c :: cs).length := by
          rw [List.length_cons, Nat.pow_succ', Nat.mul_assoc]
    · cases h

theorem digits?_lt {cs : List Char} {n : Nat} (h : digits? cs = some n) : n < 10 ^ cs.length := by
  cases cs with
  | nil => cases h
  | cons c cs => simpa using accumulate_lt h

end Numeral

namespace Timestamp

/-! ## Numbers of fixed width -/

section Padded

variable {width n : Nat}

theorem toList_padLeft (width n : Nat) : (padLeft width n).toList
    = List.replicate (width - (toString n).length) '0' ++ (toString n).toList := by
  rw [padLeft, String.toList_append, String.toList_ofList]

theorem isDigit_of_mem_padLeft {c : Char} (h : c ∈ (padLeft width n).toList) : c.isDigit = true := by
  rw [toList_padLeft] at h
  rcases List.mem_append.1 h with h | h
  · rw [List.eq_of_mem_replicate h]
    rfl
  · exact Numeral.isDigit_of_mem_repr h

theorem padLeft_ne_nil (width n : Nat) : (padLeft width n).toList ≠ [] := by
  rw [toList_padLeft]
  exact List.append_ne_nil_of_right_ne_nil _ (Numeral.toList_toString_ne_nil n)

theorem digits?_padLeft (width n : Nat) : Numeral.digits? (padLeft width n).toList = some n := by
  rw [Numeral.digits?_of_isDigit (padLeft_ne_nil width n) fun c => isDigit_of_mem_padLeft, toList_padLeft,
    Nat.ofDigitChars_append, Nat.ofDigitChars_replicate_zero, Nat.mul_zero, Numeral.ofDigitChars_toString]

theorem length_padLeft (hwidth : 0 < width) (h : n < 10 ^ width) : (padLeft width n).toList.length = width := by
  have hle : (toString n).toList.length ≤ width := by
    rw [Numeral.toList_toString]
    exact (Nat.length_toDigits_le_iff (by decide) hwidth).2 h
  rw [toList_padLeft, List.length_append, List.length_replicate, ← String.length_toList]
  omega

theorem fixedDigits?_padLeft (width n : Nat) (hwidth : 0 < width) (h : n < 10 ^ width) (rest : List Char) :
    fixedDigits? width ((padLeft width n).toList ++ rest) = some (n, rest) := by
  have hlength := length_padLeft hwidth h
  have htake : ((padLeft width n).toList ++ rest).take width = (padLeft width n).toList :=
    List.take_left' hlength
  have hdrop : ((padLeft width n).toList ++ rest).drop width = rest := List.drop_left' hlength
  rw [fixedDigits?, htake, if_pos hlength, hdrop, digits?_padLeft]
  rfl

end Padded

/-- A fraction is written in thousandths, millionths or billionths and read back as it was. -/
theorem fraction?_fractionText {nano : Nat} (h : nano < 1000000000) :
    fraction? ((fractionText nano).toList ++ ['Z']) = some (nano, ['Z']) := by
  have hread : ∀ width n, 0 < width → width ≤ 9 → n < 10 ^ width →
      fraction? (("." ++ padLeft width n).toList ++ ['Z']) = some (n * tenTo (9 - width), ['Z']) := by
    intro width n hwidth hle hn
    have hlength := length_padLeft hwidth hn
    have hdigits : ((padLeft width n).toList ++ ['Z']).takeWhile Char.isDigit = (padLeft width n).toList := by
      rw [List.takeWhile_append_of_pos fun c => isDigit_of_mem_padLeft]
      exact List.append_nil _
    have hlist : ("." ++ padLeft width n).toList ++ ['Z'] = '.' :: ((padLeft width n).toList ++ ['Z']) := by
      simp
    rw [hlist, fraction?, hdigits, List.take_of_length_le (by omega), digits?_padLeft, hlength, Option.map_some,
      List.drop_left' hlength]
  unfold fractionText
  split
  · rename_i hzero
    rw [hzero]
    rfl
  · split
    · rw [hread 3 _ (by decide) (by decide) (by omega)]
      have hten : tenTo (9 - 3) = 1000000 := rfl
      rw [hten, Nat.div_mul_cancel (by omega)]
    · split
      · rw [hread 6 _ (by decide) (by decide) (by omega)]
        have hten : tenTo (9 - 6) = 1000 := rfl
        rw [hten, Nat.div_mul_cancel (by omega)]
      · rw [hread 9 _ (by decide) (by decide) h]
        have hten : tenTo (9 - 9) = 1 := rfl
        rw [hten, Nat.mul_one]

/-! ## Instants that texts name -/

variable {t : Timestamp}

/-- An instant within its day; a leap second ends a minute. -/
structure InDay (t : Timestamp) : Prop where
  second : t.second < 86400
  nano : t.nano < 2000000000
  leap : 1000000000 ≤ t.nano → t.second % 60 = 59

/-- The year of an instant. -/
def year (t : Timestamp) : Int := (CivilDate.ofDay t.day).year

/-- Whether the year has at most four digits and no sign. -/
def HasPlainYear (t : Timestamp) : Prop := 0 ≤ t.year ∧ t.year ≤ 9999

instance (t : Timestamp) : Decidable t.HasPlainYear := inferInstanceAs (Decidable (_ ∧ _))

theorem fraction?_lt {cs rest : List Char} {n : Nat} (h : fraction? cs = some (n, rest)) : n < 1000000000 := by
  unfold fraction? at h
  split at h
  · rename_i cs
    dsimp only at h
    obtain ⟨m, hm, heq⟩ := Option.map_eq_some_iff.1 h
    obtain ⟨rfl, -⟩ := Prod.mk.inj heq
    have hlt := Numeral.digits?_lt hm
    have hkept : ((cs.takeWhile Char.isDigit).take 9).length ≤ 9 := List.length_take_le 9 _
    generalize ((cs.takeWhile Char.isDigit).take 9).length = k at hlt hkept ⊢
    calc m * tenTo (9 - k) < 10 ^ k * 10 ^ (9 - k) :=
          Nat.mul_lt_mul_of_pos_right hlt (Nat.pow_pos (by decide))
      _ = 1000000000 := by rw [← Nat.pow_add, Nat.add_sub_cancel' hkept]
  · cases h
    decide

/-! ## The parts of the reader -/

/-- The instant of a time, in minutes off UTC, on a date; the second may be a leap second. -/
def onDate? (date : CivilDate) (hour minute second nano : Nat) (offset : Int) : Option Timestamp :=
  if date.isValid ∧ hour < 24 ∧ minute < 60 ∧ second ≤ 60 then
    let (second, nano) := if second = 60 then (59, nano + 1000000000) else (second, nano)
    let total : Int := (hour * 3600 + minute * 60 + second : Nat) - offset * 60
    some ⟨date.toDay + total / 86400, (total % 86400).toNat, nano⟩
  else none

/-- Reads the time on a date. -/
def timeOn? (date : CivilDate) (cs : List Char) : Option Timestamp := do
  let (hour, cs) ← fixedDigits? 2 cs
  let cs ← literal? ':' cs
  let (minute, cs) ← fixedDigits? 2 cs
  let cs ← literal? ':' cs
  let (second, cs) ← fixedDigits? 2 cs
  let (nano, cs) ← fraction? cs
  let offset ← offset? cs
  onDate? date hour minute second nano offset

theorem ofRfc3339?_eq (cs : List Char) : ofRfc3339? cs = (do
    let (year, cs) ← fixedDigits? 4 cs
    let cs ← literal? '-' cs
    let (month, cs) ← fixedDigits? 2 cs
    let cs ← literal? '-' cs
    let (day, cs) ← fixedDigits? 2 cs
    match cs with
    | c :: cs => if c = 'T' ∨ c = 't' ∨ c = ' ' then timeOn? ⟨year, month, day⟩ cs else none
    | [] => none) := rfl

theorem inDay_of_onDate? {date : CivilDate} {hour minute second nano : Nat} {offset : Int}
    (hnano : nano < 1000000000) (h : onDate? date hour minute second nano offset = some t) : t.InDay := by
  unfold onDate? at h
  split at h
  · by_cases hleap : second = 60
    · rw [if_pos hleap] at h
      cases h
      constructor <;> dsimp only <;> omega
    · rw [if_neg hleap] at h
      cases h
      constructor <;> dsimp only <;> omega
  · cases h

theorem inDay_of_timeOn? {date : CivilDate} {cs : List Char} (h : timeOn? date cs = some t) : t.InDay := by
  simp only [timeOn?, Option.bind_eq_bind, Option.bind_eq_some_iff] at h
  obtain ⟨_, -, _, -, _, -, _, -, _, -, ⟨nano, _⟩, hnano, _, -, h⟩ := h
  exact inDay_of_onDate? (fraction?_lt hnano) h

/-- Every text that is read names an instant within its day. -/
theorem inDay_of_ofText? {s : String} (h : ofText? s = some t) : t.InDay := by
  rcases Option.or_eq_some_iff.1 h with h | ⟨-, h⟩
  · rw [ofRfc3339?_eq] at h
    simp only [Option.bind_eq_bind, Option.bind_eq_some_iff] at h
    obtain ⟨_, -, _, -, _, -, _, -, ⟨_, cs⟩, -, h⟩ := h
    dsimp only at h
    split at h
    · split at h
      · exact inDay_of_timeOn? h
      · cases h
    · cases h
  · simp only [ofDate?, Option.bind_eq_bind, Option.bind_eq_some_iff] at h
    obtain ⟨_, -, _, -, _, -, _, -, _, -, h⟩ := h
    split at h
    · cases h
      exact ⟨Nat.zero_lt_succ _, Nat.zero_lt_succ _, fun hleap => absurd hleap (Nat.not_succ_le_zero _)⟩
    · cases h

/-! ## The parts of the text -/

/-- What a leap second is written after its minute's last second. -/
def leap (t : Timestamp) : Nat := if 1000000000 ≤ t.nano then 1 else 0

/-- The nanoseconds that are written as a fraction. -/
def fraction (t : Timestamp) : Nat := if 1000000000 ≤ t.nano then t.nano - 1000000000 else t.nano

/-- The time within its day, in UTC. -/
def clock (t : Timestamp) : List Char :=
  (padLeft 2 (t.second / 3600)).toList ++ ':' :: ((padLeft 2 (t.second / 60 % 60)).toList ++ ':' ::
    ((padLeft 2 (t.second % 60 + t.leap)).toList ++ ((fractionText t.fraction).toList ++ ['Z'])))

theorem toList_text (t : Timestamp) : t.text.toList = (yearText t.year).toList ++ '-' ::
    ((padLeft 2 (CivilDate.ofDay t.day).month).toList ++ '-' ::
      ((padLeft 2 (CivilDate.ofDay t.day).day).toList ++ 'T' :: t.clock)) := by
  by_cases hleap : 1000000000 ≤ t.nano <;> simp [text, clock, leap, fraction, year, hleap]

theorem not_isBlank_text (t : Timestamp) : ∀ c ∈ t.text.toList, Text.isBlank c = false := by
  have hpad : ∀ width n, ∀ c ∈ (padLeft width n).toList, Text.isBlank c = false :=
    fun _ _ _ hc => Text.isBlank_of_isDigit (isDigit_of_mem_padLeft hc)
  have hyear : ∀ c ∈ (yearText t.year).toList, Text.isBlank c = false := by
    unfold yearText
    split
    · exact hpad _ _
    · split <;> simpa using ⟨by decide, hpad _ _⟩
  have hfraction : ∀ c ∈ (fractionText t.fraction).toList, Text.isBlank c = false := by
    unfold fractionText
    split
    · simp
    · split
      · simpa using ⟨by decide, hpad _ _⟩
      · split <;> simpa using ⟨by decide, hpad _ _⟩
  simp only [toList_text, clock, List.forall_mem_append, List.forall_mem_cons]
  exact ⟨hyear, by decide, hpad 2 _, by decide, hpad 2 _, by decide, hpad 2 _, by decide, hpad 2 _, by decide,
    hpad 2 _, hfraction, by decide, List.forall_mem_nil _⟩

theorem trimChars_text (t : Timestamp) : Text.trimChars t.text.toList = t.text.toList := by
  rw [← String.toList_ofList (l := Text.trimChars t.text.toList)]
  exact congrArg String.toList (Text.trim_of_forall (not_isBlank_text t))

theorem timeOn?_clock (h : t.InDay) (date : CivilDate) : timeOn? date t.clock
    = onDate? date (t.second / 3600) (t.second / 60 % 60) (t.second % 60 + t.leap) t.fraction 0 := by
  have hleap : t.leap ≤ 1 := by unfold leap; split <;> decide
  have hfraction : t.fraction < 1000000000 := by
    have := h.nano
    unfold fraction
    split <;> omega
  have hsecond := h.second
  simp only [timeOn?, clock, literal?, if_true, Option.bind_eq_bind, Option.bind_some,
    fixedDigits?_padLeft 2 (t.second / 3600) (by decide) (by omega),
    fixedDigits?_padLeft 2 (t.second / 60 % 60) (by decide) (by omega),
    fixedDigits?_padLeft 2 (t.second % 60 + t.leap) (by decide) (by omega),
    fraction?_fractionText hfraction, offset?]

/-- A time of the day is read back on every date of the calendar. -/
theorem onDate?_second (h : t.InDay) {date : CivilDate} (hdate : date.isValid = true) :
    onDate? date (t.second / 3600) (t.second / 60 % 60) (t.second % 60 + t.leap) t.fraction 0
      = some ⟨date.toDay, t.second, t.nano⟩ := by
  have hsecond := h.second
  have hend := h.leap
  have hnano := h.nano
  unfold leap fraction
  have hread : ∀ total : Int, total = t.second →
      (some ⟨date.toDay + total / 86400, (total % 86400).toNat, t.nano⟩ : Option Timestamp)
        = some ⟨date.toDay, t.second, t.nano⟩ := by
    rintro total rfl
    have hday : (t.second : Int) / 86400 = 0 := by omega
    have hrest : ((t.second : Int) % 86400).toNat = t.second := by omega
    rw [hday, hrest, Int.add_zero]
  by_cases hleap : 1000000000 ≤ t.nano
  · have hlast := hend hleap
    have hnine : t.nano - 1000000000 + 1000000000 = t.nano := by omega
    simp only [onDate?, hdate, hleap, if_true, hlast, hnine]
    rw [if_pos ⟨trivial, by omega, by omega, by omega⟩]
    exact hread _ (by omega)
  · simp only [onDate?, hdate, hleap, if_false, Nat.add_zero]
    rw [if_pos ⟨trivial, by omega, by omega, by omega⟩, if_neg (by omega)]
    exact hread _ (by omega)

/-- The text of an instant in a year of four digits names the instant. -/
theorem ofText?_text (h : t.InDay) (hyear : t.HasPlainYear) : ofText? t.text = some t := by
  obtain ⟨hlow, hhigh⟩ := hyear
  have hmonth := CivilDate.month_ofDay t.day
  have hday := CivilDate.day_ofDay t.day
  have hdays := CivilDate.daysInMonth_le (CivilDate.ofDay t.day).year (CivilDate.ofDay t.day).month
  have hvalid : (CivilDate.ofDay t.day).isValid = true :=
    CivilDate.isValid_ofDay (Int.le_trans (by decide) hlow) (Int.le_trans hhigh (by decide))
  have hdate : (⟨(t.year.toNat : Nat), (CivilDate.ofDay t.day).month, (CivilDate.ofDay t.day).day⟩ : CivilDate)
      = CivilDate.ofDay t.day := by
    rw [Int.toNat_of_nonneg hlow]
    rfl
  have hread : ofRfc3339? t.text.toList = some t := by
    simp only [ofRfc3339?_eq, toList_text, yearText, if_pos (And.intro hlow hhigh), literal?, if_true,
      Option.bind_eq_bind, Option.bind_some,
      fixedDigits?_padLeft 4 (t.year.toNat) (by decide) (by omega),
      fixedDigits?_padLeft 2 ((CivilDate.ofDay t.day).month) (by decide) (by omega),
      fixedDigits?_padLeft 2 ((CivilDate.ofDay t.day).day) (by decide) (by omega),
      true_or, hdate, timeOn?_clock h, onDate?_second h hvalid, CivilDate.toDay_ofDay]
  rw [ofText?, trimChars_text, hread]
  rfl

/-! ## Years with a sign -/

theorem dropWhile_isBlank {c : Char} (hc : Text.isBlank c = false) (cs : List Char) :
    (c :: cs).dropWhile Text.isBlank = c :: cs :=
  List.dropWhile_cons_of_neg (by rw [hc]; decide)

theorem takeWhile_padLeft (width n : Nat) {c : Char} (hc : c.isDigit = false) (rest : List Char) :
    ((padLeft width n).toList ++ c :: rest).takeWhile Char.isDigit = (padLeft width n).toList := by
  rw [List.takeWhile_append_of_pos fun c => isDigit_of_mem_padLeft, List.takeWhile_cons_of_neg (by rw [hc]; decide),
    List.append_nil]

/-- A padded number is split off before what is no digit. -/
theorem padded?_padLeft (width n : Nat) (hwidth : 0 < width) (h : n < 10 ^ width) {c : Char}
    (hc : c.isDigit = false) (rest : List Char) :
    padded? width ((padLeft width n).toList ++ c :: rest) = some (n, c :: rest) := by
  have hlength := length_padLeft hwidth h
  have hblank : ((padLeft width n).toList ++ c :: rest).dropWhile Text.isBlank
      = (padLeft width n).toList ++ c :: rest := by
    obtain ⟨d, ds, hd⟩ := List.exists_cons_of_ne_nil (padLeft_ne_nil width n)
    have hmem : d ∈ (padLeft width n).toList := by rw [hd]; exact .head ds
    rw [hd]
    exact dropWhile_isBlank (Text.isBlank_of_isDigit (isDigit_of_mem_padLeft hmem)) _
  simp only [padded?, hblank]
  rw [takeWhile_padLeft width n hc, List.take_of_length_le (Nat.le_of_eq hlength), digits?_padLeft,
    List.drop_left]
  rfl

theorem toList_yearText {year : Int} (hyear : ¬(0 ≤ year ∧ year ≤ 9999)) :
    (yearText year).toList = (if year < 0 then '-' else '+') :: (padLeft 4 year.natAbs).toList := by
  rw [yearText, if_neg hyear]
  split <;> simp

/-- The digits of a year with a sign end where the date goes on. -/
theorem signedYear?_yearText {year : Int} (hyear : ¬(0 ≤ year ∧ year ≤ 9999)) (rest : List Char) :
    signedYear? ((yearText year).toList ++ '-' :: rest) = some (year, '-' :: rest) := by
  have hdigits := takeWhile_padLeft 4 year.natAbs (c := '-') (by decide) rest
  rw [toList_yearText hyear]
  by_cases hneg : year < 0
  · rw [if_pos hneg, List.cons_append, signedYear?, dropWhile_isBlank (by decide)]
    simp [hdigits, digits?_padLeft, abs_of_neg hneg]
  · rw [if_neg hneg, List.cons_append, signedYear?, dropWhile_isBlank (by decide)]
    simp [hdigits, digits?_padLeft, abs_of_nonneg (Int.not_lt.1 hneg)]

/-- A year of a time has no sign. -/
theorem ofRfc3339?_sign {c : Char} (hc : c.isDigit = false) (cs : List Char) : ofRfc3339? (c :: cs) = none := by
  have hvalue : digitValue? c = none := by
    rw [← Option.not_isSome_iff_eq_none, isSome_digitValue?, hc]
    decide
  have hyear : fixedDigits? 4 (c :: cs) = none := by
    unfold fixedDigits?
    split
    · simp [Numeral.digits?, Numeral.accumulate, hvalue]
    · rfl
  rw [ofRfc3339?_eq, hyear]
  rfl

/-- The text of an instant in another year names no instant: a date with a sign is read, but no time after it. -/
theorem ofText?_text_eq_none (hyear : ¬t.HasPlainYear) : ofText? t.text = none := by
  have hmonth := CivilDate.month_ofDay t.day
  have hday := CivilDate.day_ofDay t.day
  have hdays := CivilDate.daysInMonth_le (CivilDate.ofDay t.day).year (CivilDate.ofDay t.day).month
  have hrfc : ofRfc3339? t.text.toList = none := by
    rw [toList_text, toList_yearText hyear]
    exact ofRfc3339?_sign (by split <;> decide) _
  have hdate : ofDate? t.text.toList = none := by
    simp [ofDate?, toList_text, signedYear?_yearText hyear, literal?,
      padded?_padLeft 2 ((CivilDate.ofDay t.day).month) (c := '-') (by decide) (by omega) (by decide),
      padded?_padLeft 2 ((CivilDate.ofDay t.day).day) (c := 'T') (by decide) (by omega) (by decide)]
  rw [ofText?, trimChars_text, hrfc, hdate]
  rfl

end Timestamp

end NestedResources
