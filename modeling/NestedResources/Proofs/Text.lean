import Mathlib.Data.List.Basic
import NestedResources.Text.Basic

/-!
# Joined texts

Joining loses where the pieces end as soon as two of them may hold the separator. If at most one
place may, lists of one length are told apart by what they are joined to
(`Text.eq_of_joinWith_eq`). Splitting gives the pieces back if none of them holds the separator.
-/
namespace NestedResources.Text

variable {α : Type} {sep : α} {words others : List (List α)}

theorem joinWith_cons {word : List α} (h : words ≠ []) :
    joinWith sep (word :: words) = word ++ sep :: joinWith sep words := by
  cases words with
  | nil => exact absurd rfl h
  | cons w ws => rfl

/-- The pieces without the separator leave only those separators that were put between them. -/
theorem count_joinWith [DecidableEq α] (hfree : ∀ word ∈ words, sep ∉ word) :
    (joinWith sep words).count sep = words.length - 1 := by
  induction words with
  | nil => rfl
  | cons word words ih =>
    have hword : word.count sep = 0 := List.count_eq_zero.2 (hfree word List.mem_cons_self)
    cases words with
    | nil => exact hword
    | cons w ws =>
      have hrest := ih fun v hv => hfree v (List.mem_cons_of_mem word hv)
      rw [joinWith_cons (List.cons_ne_nil w ws), List.count_append, hword, List.count_cons_self, hrest]
      simp

/-- Texts with a separator in them that are equal are cut at the same place, or one of them is cut later
and has the separator of the other before its own. -/
theorem append_sep_cases {a b c d : List α} (h : a ++ sep :: c = b ++ sep :: d) :
    (a = b ∧ c = d) ∨ (∃ m, b = a ++ sep :: m ∧ c = m ++ sep :: d) ∨
      ∃ m, a = b ++ sep :: m ∧ d = m ++ sep :: c := by
  rcases List.append_eq_append_iff.1 h with ⟨more, rfl, hmore⟩ | ⟨more, rfl, hmore⟩
  · cases more with
    | nil => exact .inl ⟨(List.append_nil a).symm, (List.cons.inj hmore).2⟩
    | cons x more =>
      obtain ⟨rfl, rfl⟩ := List.cons.inj hmore
      exact .inr (.inl ⟨more, rfl, rfl⟩)
  · cases more with
    | nil => exact .inl ⟨List.append_nil b, (List.cons.inj hmore).2.symm⟩
    | cons x more =>
      obtain ⟨rfl, rfl⟩ := List.cons.inj hmore
      exact .inr (.inr ⟨more, rfl, rfl⟩)

/-- Texts that end alike after equally many separators begin alike. -/
theorem append_sep_inj_of_count [DecidableEq α] {a b c d : List α} (hcount : c.count sep = d.count sep)
    (h : a ++ sep :: c = b ++ sep :: d) : a = b ∧ c = d := by
  rcases append_sep_cases h with hsame | ⟨m, -, rfl⟩ | ⟨m, -, rfl⟩
  · exact hsame
  · rw [List.count_append, List.count_cons_self] at hcount
    omega
  · rw [List.count_append, List.count_cons_self] at hcount
    omega

/-- Beginnings without the separator end at the first one. -/
theorem append_sep_inj_of_notMem {a b c d : List α} (ha : sep ∉ a) (hb : sep ∉ b)
    (h : a ++ sep :: c = b ++ sep :: d) : a = b ∧ c = d := by
  rcases append_sep_cases h with hsame | ⟨m, rfl, -⟩ | ⟨m, rfl, -⟩
  · exact hsame
  · simp at hb
  · simp at ha

/-- At most the piece at place `k` has the separator in it. -/
def FreeBut (sep : α) (k : Nat) (words : List (List α)) : Prop :=
  ∀ n word, words[n]? = some word → n ≠ k → sep ∉ word

theorem FreeBut.of_forall (h : ∀ word ∈ words, sep ∉ word) (k : Nat) : FreeBut sep k words :=
  fun _ word hword _ => h word (List.mem_of_getElem? hword)

theorem FreeBut.tail_free {word : List α} (h : FreeBut sep 0 (word :: words)) :
    ∀ w ∈ words, sep ∉ w := by
  intro w hw
  obtain ⟨n, hn⟩ := List.mem_iff_getElem?.1 hw
  exact h (n + 1) w hn (Nat.succ_ne_zero n)

theorem FreeBut.tail {k : Nat} {word : List α} (h : FreeBut sep (k + 1) (word :: words)) :
    FreeBut sep k words :=
  fun n w hw hn => h (n + 1) w hw fun he => hn (Nat.succ.inj he)

/-- Lists of one length whose pieces are free of the separator, one place apart, are joined to
different texts. -/
theorem eq_of_joinWith_eq [DecidableEq α] {k : Nat} (hlength : words.length = others.length)
    (hwords : FreeBut sep k words) (hothers : FreeBut sep k others)
    (h : joinWith sep words = joinWith sep others) : words = others := by
  induction words generalizing others k with
  | nil => exact (List.eq_nil_of_length_eq_zero hlength.symm).symm
  | cons word words ih =>
    obtain ⟨other, others, rfl⟩ := List.exists_cons_of_length_eq_add_one hlength.symm
    have hrest : words.length = others.length := Nat.succ.inj hlength
    by_cases hnil : words = []
    · subst hnil
      obtain rfl := List.eq_nil_of_length_eq_zero hrest.symm
      exact congrArg (List.cons · []) h
    · have hnil' : others ≠ [] := fun he => hnil (List.eq_nil_of_length_eq_zero (by simp [hrest, he]))
      rw [joinWith_cons hnil, joinWith_cons hnil'] at h
      cases k with
      | zero =>
        have hcount : (joinWith sep words).count sep = (joinWith sep others).count sep := by
          rw [count_joinWith hwords.tail_free, count_joinWith hothers.tail_free, hrest]
        obtain ⟨rfl, htail⟩ := append_sep_inj_of_count hcount h
        rw [ih hrest (.of_forall hwords.tail_free 0) (.of_forall hothers.tail_free 0) htail]
      | succ k =>
        have hfirst : sep ∉ word := hwords 0 word rfl (Nat.zero_ne_add_one k)
        have hsecond : sep ∉ other := hothers 0 other rfl (Nat.zero_ne_add_one k)
        obtain ⟨rfl, htail⟩ := append_sep_inj_of_notMem hfirst hsecond h
        rw [ih hrest hwords.tail hothers.tail htail]

theorem toList_join (c : Char) (words : List String) :
    (join (String.singleton c) words).toList = joinWith c (words.map String.toList) := by
  induction words with
  | nil => rfl
  | cons word words ih =>
    cases words with
    | nil => rfl
    | cons w ws =>
      rw [join]
      · simp only [String.toList_append, ih, List.map_cons]
        rw [joinWith_cons (List.cons_ne_nil _ _)]
        simp
      · simp

/-! ## Splitting joined texts -/

theorem split_append_sep [DecidableEq α] (a b : List α) :
    split sep (a ++ sep :: b) = split sep a ++ split sep b := by
  induction a with
  | nil => simp [split]
  | cons c a ih =>
    rw [List.cons_append, split, split]
    split
    · rw [ih, List.cons_append]
    · rw [ih]
      cases hs : split sep a with
      | nil => exact absurd hs (split_ne_nil sep a)
      | cons word words => rfl

theorem fields_append (c : Char) (a b : String) :
    fields c (a ++ String.singleton c ++ b) = fields c a ++ fields c b := by
  have htext : (a ++ String.singleton c ++ b).toList = a.toList ++ c :: b.toList := by simp
  rw [fields, htext, split_append_sep, List.map_append, fields, fields]

/-- The pieces of a joined text are those of its parts. -/
theorem fields_join (c : Char) {words : List String} (h : words ≠ []) :
    fields c (join (String.singleton c) words) = words.flatMap (fields c) := by
  induction words with
  | nil => exact absurd rfl h
  | cons word words ih =>
    cases words with
    | nil => rw [join, List.flatMap_singleton]
    | cons w ws =>
      have hjoin : join (String.singleton c) (word :: w :: ws)
          = word ++ String.singleton c ++ join (String.singleton c) (w :: ws) := rfl
      rw [hjoin, fields_append, ih (List.cons_ne_nil w ws)]
      exact List.flatMap_cons.symm

/-- The pieces of a text are joined to it again. -/
theorem join_fields (c : Char) (s : String) : join (String.singleton c) (fields c s) = s := by
  rw [← String.toList_inj, toList_join, fields, List.map_map]
  have hid : String.toList ∘ String.ofList = id := funext fun cs => String.toList_ofList
  rw [hid, List.map_id, joinWith_split]

theorem fields_ne_nil (c : Char) (s : String) : fields c s ≠ [] :=
  fun h => split_ne_nil c s.toList (List.map_eq_nil_iff.1 h)

theorem split_of_notMem [DecidableEq α] {cs : List α} (h : sep ∉ cs) : split sep cs = [cs] := by
  induction cs with
  | nil => rfl
  | cons c cs ih =>
    obtain ⟨hc, hcs⟩ := not_or.1 (List.mem_cons.not.1 h)
    rw [split, if_neg (Ne.symm hc), ih hcs]

theorem notMem_of_mem_split [DecidableEq α] {cs word : List α} (h : word ∈ split sep cs) : sep ∉ word := by
  induction cs generalizing word with
  | nil =>
    rw [List.mem_singleton.1 h]
    exact List.not_mem_nil
  | cons c cs ih =>
    rw [split] at h
    split at h
    · rcases List.mem_cons.1 h with rfl | h
      · exact List.not_mem_nil
      · exact ih h
    · rename_i hc
      cases hs : split sep cs with
      | nil => exact absurd hs (split_ne_nil sep cs)
      | cons first words =>
        rw [hs] at h ih
        rcases List.mem_cons.1 h with rfl | h
        · rw [List.mem_cons, not_or]
          exact ⟨Ne.symm hc, ih List.mem_cons_self⟩
        · exact ih (List.mem_cons_of_mem first h)

/-! ## Blanks -/

theorem isBlank_of_isDigit {c : Char} (h : c.isDigit = true) : isBlank c = false := by
  simp only [Char.isDigit, Bool.and_eq_true, decide_eq_true_eq] at h
  have hlow : 48 ≤ c.toNat := UInt32.le_iff_toNat_le.1 h.1
  have hhigh : c.toNat ≤ 57 := UInt32.le_iff_toNat_le.1 h.2
  simp only [isBlank, Bool.or_eq_false_iff, Bool.and_eq_false_iff, decide_eq_false_iff_not]
  omega

theorem trim_of_forall {s : String} (h : ∀ c ∈ s.toList, isBlank c = false) : trim s = s := by
  have hdrop : ∀ cs : List Char, (∀ c ∈ cs, isBlank c = false) → cs.dropWhile isBlank = cs := by
    intro cs hcs
    cases cs with
    | nil => rfl
    | cons c cs => simp [hcs c List.mem_cons_self]
  rw [trim, trimChars, hdrop _ h, hdrop _ fun c hc => h c (List.mem_reverse.1 hc), List.reverse_reverse,
    String.ofList_toList]

end NestedResources.Text
