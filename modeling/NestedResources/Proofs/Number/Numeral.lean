import NestedResources.Number.Numeral

/-!
# Numerals that are read back

Texts of whole numbers are runs of digits, and the readers of numerals give the numbers back. A decimal
numeral is read by its parts: digits, perhaps a point with more digits, perhaps an exponent
(`Decimal.ofUnsigned?_point`, `Decimal.ofUnsigned?_whole`).
-/
namespace NestedResources

theorem digitValue?_of_isDigit {c : Char} (h : c.isDigit = true) :
    digitValue? c = some (c.toNat - '0'.toNat) := by
  simp only [Char.isDigit, Bool.and_eq_true, decide_eq_true_eq] at h
  exact if_pos h

theorem isSome_digitValue? (c : Char) : (digitValue? c).isSome = c.isDigit := by
  have hrange : ('0' ≤ c ∧ c ≤ '9') ↔ c.isDigit = true := by
    rw [Char.isDigit, Bool.and_eq_true, decide_eq_true_eq, decide_eq_true_eq]
    rfl
  unfold digitValue?
  split
  · rename_i h
    exact (hrange.1 h).symm
  · rename_i h
    exact (Bool.eq_false_iff.2 fun hd => h (hrange.2 hd)).symm

theorem toNat_of_isDigit {c : Char} (h : c.isDigit = true) : 48 ≤ c.toNat ∧ c.toNat ≤ 57 := by
  simp only [Char.isDigit, Bool.and_eq_true, decide_eq_true_eq] at h
  exact ⟨UInt32.le_iff_toNat_le.1 h.1, UInt32.le_iff_toNat_le.1 h.2⟩

theorem digitValue?_lt {c : Char} {d : Nat} (h : digitValue? c = some d) : d < 10 := by
  have hdigit : c.isDigit = true := by rw [← isSome_digitValue?, h]; rfl
  have hhigh := (toNat_of_isDigit hdigit).2
  rw [digitValue?_of_isDigit hdigit] at h
  cases h
  have hzero : '0'.toNat = 48 := rfl
  omega

theorem toLower_of_isDigit {c : Char} (h : c.isDigit = true) : c.toLower = c := by
  have hhigh := (toNat_of_isDigit h).2
  unfold Char.toLower
  split
  · rename_i hupper
    have hlow : 65 ≤ c.toNat := UInt32.le_iff_toNat_le.1 hupper.1
    omega
  · rfl

namespace Numeral

variable {cs : List Char}

theorem accumulate_of_isDigit (h : ∀ c ∈ cs, c.isDigit = true) (acc : Nat) :
    accumulate acc cs = some (Nat.ofDigitChars 10 cs acc) := by
  induction cs generalizing acc with
  | nil => rfl
  | cons c cs ih =>
    rw [accumulate, digitValue?_of_isDigit (h c List.mem_cons_self)]
    dsimp only
    rw [ih (fun d hd => h d (List.mem_cons_of_mem c hd)), Nat.mul_comm acc]
    rfl

theorem digits?_of_isDigit (hne : cs ≠ []) (h : ∀ c ∈ cs, c.isDigit = true) :
    digits? cs = some (Nat.ofDigitChars 10 cs 0) := by
  cases cs with
  | nil => exact absurd rfl hne
  | cons c cs => exact accumulate_of_isDigit h 0

theorem toList_toString (n : Nat) : (toString n).toList = Nat.toDigits 10 n := by
  rw [Nat.toString_eq_repr, Nat.toList_repr]

theorem isDigit_of_mem_repr {n : Nat} {c : Char} (h : c ∈ (toString n).toList) : c.isDigit = true := by
  rw [toList_toString] at h
  exact Nat.isDigit_of_mem_toDigits (by decide) (by decide) h

theorem toList_toString_ne_nil (n : Nat) : (toString n).toList ≠ [] := by
  rw [toList_toString]
  exact Nat.toDigits_ne_nil

theorem ofDigitChars_toString (n : Nat) : Nat.ofDigitChars 10 (toString n).toList 0 = n := by
  rw [toList_toString, Nat.ofDigitChars_ten_toDigits]

/-- The text of a number is read as that number. -/
theorem digits?_toString (n : Nat) : digits? (toString n).toList = some n := by
  rw [digits?_of_isDigit (toList_toString_ne_nil n) fun c => isDigit_of_mem_repr, ofDigitChars_toString]

/-- What begins with a digit has no sign. -/
theorem sign_of_isDigit (h : ∀ c ∈ cs.head?, c.isDigit = true) : sign cs = (false, cs) := by
  unfold sign
  split
  · cases h '+' rfl
  · cases h '-' rfl
  · rfl

theorem isDigit_of_mem_head? {n : Nat} : ∀ c ∈ (toString n).toList.head?, c.isDigit = true :=
  fun _ h => isDigit_of_mem_repr (List.mem_of_mem_head? h)

/-- The text of a word is read as that word. -/
theorem unsigned64?_toString (n : UInt64) : unsigned64? (toString n) = some n := by
  have hread := digits?_toString n.toNat
  have hdigit := isDigit_of_mem_head? (n := n.toNat)
  change unsigned64? (toString n.toNat) = some n
  unfold unsigned64?
  generalize (toString n.toNat).toList = cs at hdigit hread
  split
  · cases hdigit '+' rfl
  · have hlt : n.toNat < 0x10000000000000000 := n.toNat_lt
    simp [hread, hlt]

theorem toList_toString_int (n : Int) : (toString n).toList =
    if n < 0 then '-' :: (toString n.natAbs).toList else (toString n.natAbs).toList := by
  cases n with
  | ofNat m => rfl
  | negSucc m =>
    rw [if_pos (Int.negSucc_lt_zero m)]
    change ("-" ++ (m + 1).repr).toList = _
    rw [String.toList_append]
    rfl

/-- The text of an integer of 64 bits is read as that integer. -/
theorem signed64?_toString {n : Int} (hlow : -0x8000000000000000 ≤ n) (hhigh : n < 0x8000000000000000) :
    signed64? (toString n) = some n := by
  have hsign : sign (toString n).toList = (decide (n < 0), (toString n.natAbs).toList) := by
    rw [toList_toString_int]
    split
    · rename_i hneg
      rw [sign, decide_eq_true hneg]
    · rename_i hnonneg
      rw [sign_of_isDigit isDigit_of_mem_head?, decide_eq_false hnonneg]
  have hvalue : (if decide (n < 0) = true then -(n.natAbs : Int) else n.natAbs) = n := by
    split <;> rename_i hneg <;> rw [decide_eq_true_eq] at hneg <;> omega
  rw [signed64?, hsign]
  dsimp only
  rw [digits?_toString, Option.bind_some, hvalue, if_pos ⟨hlow, hhigh⟩]

end Numeral

namespace Decimal

variable {whole places rest : List Char} {e : Int}

/-- Where a run of digits ends. -/
theorem span_digits (hwhole : ∀ c ∈ whole, c.isDigit = true) (hrest : ∀ c ∈ rest.head?, c.isDigit = false) :
    ((whole ++ rest).takeWhile fun c => (digitValue? c).isSome) = whole ∧
      ((whole ++ rest).dropWhile fun c => (digitValue? c).isSome) = rest := by
  have hrun : ∀ c ∈ whole, (digitValue? c).isSome = true := fun c hc => by
    rw [isSome_digitValue?, hwhole c hc]
  rw [List.takeWhile_append_of_pos hrun, List.dropWhile_append_of_pos hrun]
  cases rest with
  | nil => exact ⟨List.append_nil whole, rfl⟩
  | cons c rest =>
    have hstop : (digitValue? c).isSome = false := by rw [isSome_digitValue?, hrest c rfl]
    rw [List.takeWhile_cons_of_neg (by rw [hstop]; decide), List.dropWhile_cons_of_neg (by rw [hstop]; decide)]
    exact ⟨List.append_nil whole, rfl⟩

theorem mark_of_exponent? (h : exponent? rest = some e) : ∀ c ∈ rest.head?, c = 'e' ∨ c = 'E' := by
  intro c hc
  obtain ⟨rest, rfl⟩ := List.head?_eq_some_iff.1 hc
  rw [exponent?] at h
  split at h
  · assumption
  · cases h

theorem not_isDigit_of_exponent? (h : exponent? rest = some e) : ∀ c ∈ rest.head?, c.isDigit = false := by
  intro c hc
  rcases mark_of_exponent? h c hc with rfl | rfl <;> decide

/-- A numeral without a point. -/
theorem ofUnsigned?_whole (negative : Bool) (hne : whole ≠ []) (hwhole : ∀ c ∈ whole, c.isDigit = true)
    (he : exponent? rest = some e) :
    ofUnsigned? negative (whole ++ rest) = some ⟨negative, Nat.ofDigitChars 10 whole 0, e⟩ := by
  obtain ⟨htake, hdrop⟩ := span_digits hwhole (not_isDigit_of_exponent? he)
  have hdigits := Numeral.digits?_of_isDigit hne hwhole
  unfold ofUnsigned?
  dsimp only
  rw [htake, hdrop]
  cases rest with
  | nil => simp [hdigits, he]
  | cons c rest => rcases mark_of_exponent? he c rfl with rfl | rfl <;> simp [hdigits, he]

/-- A numeral with a point. -/
theorem ofUnsigned?_point (negative : Bool) (hne : whole ≠ []) (hwhole : ∀ c ∈ whole, c.isDigit = true)
    (hplaces : ∀ c ∈ places, c.isDigit = true) (he : exponent? rest = some e) :
    ofUnsigned? negative (whole ++ '.' :: (places ++ rest))
      = some ⟨negative, Nat.ofDigitChars 10 (whole ++ places) 0, e - places.length⟩ := by
  have hpoint : ∀ c ∈ ('.' :: (places ++ rest)).head?, c.isDigit = false := fun c hc => by cases hc; rfl
  obtain ⟨htake, hdrop⟩ := span_digits hwhole hpoint
  obtain ⟨htake', hdrop'⟩ := span_digits hplaces (not_isDigit_of_exponent? he)
  have hdigits : Numeral.digits? (whole ++ places) = some (Nat.ofDigitChars 10 (whole ++ places) 0) :=
    Numeral.digits?_of_isDigit (List.append_ne_nil_of_left_ne_nil hne places)
      fun c hc => (List.mem_append.1 hc).elim (hwhole c) (hplaces c)
  unfold ofUnsigned?
  simp only [htake, hdrop, htake', hdrop', hdigits, he]

/-- A signed exponent. -/
theorem exponent?_text (e : Int) :
    exponent? ('e' :: (if e < 0 then '-' else '+') :: (toString e.natAbs).toList) = some e := by
  have hread := Numeral.digits?_toString e.natAbs
  generalize (toString e.natAbs).toList = digits at hread ⊢
  by_cases hneg : e < 0
  · have hvalue : -(e.natAbs : Int) = e := by omega
    simpa [exponent?, Numeral.sign, hread, hneg] using hvalue
  · have hvalue : (e.natAbs : Int) = e := by omega
    simpa [exponent?, Numeral.sign, hread, hneg] using hvalue

end Decimal

end NestedResources
