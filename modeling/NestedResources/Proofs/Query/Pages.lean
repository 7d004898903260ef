import Mathlib.Algebra.Ring.Nat
import NestedResources.Proofs.Number.Numeral
import NestedResources.Proofs.Query.EmbedOptions
import NestedResources.Proofs.Query.OfParams
import NestedResources.Proofs.Query.Params
import NestedResources.Proofs.Text

/-!
# Pages of a query

A page size and a page number are two more parameters. They are read back as what they are, set the
window of the query and leave everything else of it alone (`QuerySite.read_onPage`); the pages up to the
last one cut the rows into pieces (`flatMap_pages`).
-/
namespace NestedResources

theorem Window.positive?_toString {n : UInt64} (hn : 0 < n) : positive? (toString n) = some n := by
  have htrim : Text.trim (toString n) = toString n :=
    Text.trim_of_forall fun c hc => Text.isBlank_of_isDigit (Numeral.isDigit_of_mem_repr hc)
  rw [positive?, natural?, htrim, Numeral.unsigned64?_toString, Option.filter_some, if_pos (decide_eq_true hn)]

/-! ## Page numbers -/

/-- The window of a page, counted from one. -/
def Window.ofPage (size page : UInt64) : Window := ⟨saturatingMul (page - 1) size, some size⟩

theorem Window.map_apply {α β : Type} (w : Window) (f : α → β) (items : List α) :
    (w.apply items).map f = w.apply (items.map f) := by
  unfold Window.apply
  split <;> simp [List.map_take, List.map_drop]

/-- The number of pages of `n` that `total` rows take; there is always one. -/
def lastPage (total n : Nat) : Nat := max 1 ((total + n - 1) / n)

/-- The pages of a list one after the other are the list. -/
theorem flatMap_pages {α : Type} {n : Nat} (hn : 0 < n) (l : List α) :
    (List.range (lastPage l.length n)).flatMap (fun k => (l.drop (k * n)).take n) = l := by
  have htake : ∀ m, (List.range m).flatMap (fun k => (l.drop (k * n)).take n) = l.take (m * n) := by
    intro m
    induction m with
    | zero => simp
    | succ m ih => simp [List.range_succ, ih, Nat.succ_mul, List.take_add]
  rw [htake]
  refine List.take_of_length_le ?_
  have hdiv := Nat.lt_div_mul_add (a := l.length + n - 1) hn
  have hmul : (l.length + n - 1) / n * n ≤ lastPage l.length n * n :=
    Nat.mul_le_mul_right n (Nat.le_max_right _ _)
  omega

theorem lastPage_pos (total n : Nat) : 0 < lastPage total n := Nat.le_max_left 1 _

/-- A page up to the last one starts inside the list, unless it is the first. -/
theorem mul_lt_of_lt_lastPage {total n k : Nat} (hn : 0 < n) (h : k < lastPage total n) :
    k = 0 ∨ k * n < total := by
  rcases Nat.eq_zero_or_pos k with hk | hk
  · exact .inl hk
  · have hlast : k + 1 ≤ (total + n - 1) / n := by
      rw [lastPage] at h
      omega
    have hmul := (Nat.le_div_iff_mul_le hn).1 hlast
    rw [Nat.succ_mul] at hmul
    exact .inr (by omega)

/-- The numbers of the pages up to the last one are words, and so are the offsets that they start at. -/
theorem toNat_page_of_lt_lastPage {total n k : Nat} (hn : 0 < n) (htotal : total < 2 ^ 64)
    (h : k < lastPage total n) :
    (k + 1).toUInt64.toNat = k + 1 ∧ 0 < (k + 1).toUInt64 ∧ k * n < 2 ^ 64 := by
  have hlt : k + 1 < 2 ^ 64 ∧ k * n < 2 ^ 64 := by
    rcases mul_lt_of_lt_lastPage hn h with rfl | hlt
    · exact ⟨by decide, by simp⟩
    · have hle : k * 1 ≤ k * n := Nat.mul_le_mul_left k hn
      omega
  have hnumber : (k + 1).toUInt64.toNat = k + 1 := Nat.mod_eq_of_lt hlt.1
  exact ⟨hnumber, UInt64.lt_iff_toNat_lt.2 (Nat.lt_of_lt_of_eq (Nat.succ_pos k) hnumber.symm), hlt.2⟩

/-- The window of a page that does not start beyond all words. -/
theorem Window.ofPage_eq {size page : UInt64} (hpage : 0 < page)
    (hfits : (page.toNat - 1) * size.toNat < 2 ^ 64) :
    ofPage size page = ⟨(page - 1) * size, some size⟩ ∧
      ((page - 1) * size).toNat = (page.toNat - 1) * size.toNat := by
  have hpred : (page - 1).toNat = page.toNat - 1 :=
    UInt64.toNat_sub_of_le page 1 (UInt64.le_iff_toNat_le.2 (UInt64.lt_iff_toNat_lt.1 hpage))
  refine ⟨?_, by rw [UInt64.toNat_mul, hpred, Nat.mod_eq_of_lt hfits]⟩
  rw [ofPage, saturatingMul, if_pos (by rwa [hpred])]

/-- A page holds the items from its start on, as many as its size. -/
theorem Window.apply_ofPage {α : Type} {size page : UInt64} (hpage : 0 < page)
    (hfits : (page.toNat - 1) * size.toNat < 2 ^ 64) (items : List α) :
    (ofPage size page).apply items = (items.drop ((page.toNat - 1) * size.toNat)).take size.toNat := by
  obtain ⟨hwindow, hoffset⟩ := ofPage_eq hpage hfits
  rw [hwindow, ← hoffset]
  rfl

namespace PageInfo

theorem toNat_ceilDiv {a b : UInt64} (hb : 0 < b) :
    (ceilDiv a b).toNat = (a.toNat + b.toNat - 1) / b.toNat := by
  have hpos : 0 < b.toNat := UInt64.lt_iff_toNat_lt.1 hb
  have hmod := Nat.mod_lt a.toNat hpos
  have hdiv := Nat.div_add_mod a.toNat b.toNat
  have hcomm := Nat.mul_comm b.toNat (a.toNat / b.toNat)
  have hzero : a % b = 0 ↔ a.toNat % b.toNat = 0 := by
    rw [← UInt64.toNat_inj, UInt64.toNat_mod]
    rfl
  unfold ceilDiv
  split
  · rename_i h
    rw [hzero] at h
    rw [UInt64.toNat_div]
    exact (Nat.div_eq_of_lt_le (by omega) (by rw [Nat.succ_mul]; omega)).symm
  · rename_i h
    rw [hzero] at h
    have hmore : a.toNat / b.toNat * 2 ≤ a.toNat / b.toNat * b.toNat := Nat.mul_le_mul_left _ (by omega)
    have hlt : a.toNat / b.toNat + 1 < 2 ^ 64 := by
      have := a.toNat_lt
      omega
    rw [UInt64.toNat_add, UInt64.toNat_div, UInt64.toNat_one, Nat.mod_eq_of_lt hlt]
    refine (Nat.div_eq_of_lt_le ?_ ?_).symm
    · rw [Nat.succ_mul]
      omega
    · rw [Nat.succ_mul, Nat.succ_mul]
      omega

theorem toNat_last {a n : UInt64} (hn : 0 < n) :
    (max 1 (ceilDiv a n)).toNat = lastPage a.toNat n.toNat := by
  have hmax : ∀ x y : UInt64, (max x y).toNat = max x.toNat y.toNat := by
    intro x y
    change (if x ≤ y then y else x).toNat = _
    rw [Nat.max_def]
    split
    · rename_i h
      exact (if_pos (UInt64.le_iff_toNat_le.1 h)).symm
    · rename_i h
      exact (if_neg (mt UInt64.le_iff_toNat_le.2 h)).symm
  rw [hmax, toNat_ceilDiv hn]
  rfl

/-- What is told of a page: its number, and the next one unless it is the last. -/
theorem ofWindow_ofPage {size page : UInt64} (available : UInt64) (hsize : 0 < size)
    (hpage : 0 < page) (hfits : (page.toNat - 1) * size.toNat < 2 ^ 64) :
    ofWindow (.ofPage size page) available =
      { available
        pageSize := some size
        current := page
        last := max 1 (ceilDiv available size)
        next := if page < max 1 (ceilDiv available size) then some (page + 1) else none
        previous := if 1 < page then some (page - 1) else none } := by
  obtain ⟨hwindow, hoffset⟩ := Window.ofPage_eq hpage hfits
  have hcurrent : (page - 1) * size / size + 1 = page := by
    have hpos : 1 ≤ page.toNat := UInt64.lt_iff_toNat_lt.1 hpage
    rw [← UInt64.toNat_inj, UInt64.toNat_add, UInt64.toNat_div, hoffset,
      Nat.mul_div_cancel _ (UInt64.lt_iff_toNat_lt.1 hsize), UInt64.toNat_one, Nat.sub_add_cancel hpos,
      Nat.mod_eq_of_lt page.toNat_lt]
  simp only [ofWindow, hwindow, if_pos hsize, hcurrent]

end PageInfo

/-! ## Page parameters -/

namespace Params

/-- Whether the parameters leave the window open. -/
def OpenWindow (params : Params) : Prop := ∀ key ∈ ["limit", "offset", "page"], params.first? key = none

/-- The parameters with a page size and the number of a page. -/
def onPage (params : Params) (size page : UInt64) : Params :=
  params.append [("limit", toString size), ("page", toString page)]

end Params

theorem Window.positiveParameter_of_first? {params : Params} {parameter : String} {n : UInt64} (hn : 0 < n)
    (h : params.first? parameter = some (toString n)) :
    positiveParameter params parameter = .ok (some n) := by
  simp only [positiveParameter, h, positive?_toString hn]

theorem Window.ofParams_onPage {params : Params} (hopen : params.OpenWindow) {size page : UInt64}
    (hsize : 0 < size) (hpage : 0 < page) {ceiling : Option UInt64} (hceiling : ∀ c, ceiling = some c → size ≤ c) :
    ofParams (params.onPage size page) ceiling = .ok (ofPage size page) := by
  have hfirst (key : String) (hkey : key ∈ ["limit", "offset", "page"]) :
      (params.onPage size page).first? key
        = Params.first? ⟨[("limit", toString size), ("page", toString page)]⟩ key := by
    rw [Params.onPage, Params.first?_append, hopen key hkey, Option.none_or]
  have hlimit := positiveParameter_of_first? hsize (hfirst "limit" (by simp))
  have hnumber := positiveParameter_of_first? hpage (hfirst "page" (by simp))
  have hoffset : (params.onPage size page).first? "offset" = none := hfirst "offset" (by simp)
  have hstart : (if 1 < page then (⟨saturatingMul (page - 1) size, some size⟩ : Window)
      else ⟨0, some size⟩) = ofPage size page := by
    split
    · rfl
    · rename_i hone
      have hone : page = 1 := UInt64.le_antisymm (UInt64.not_lt.1 hone) hpage
      simp [hone, ofPage, saturatingMul]
  unfold ofParams
  rw [hlimit, ← hstart]
  cases ceiling with
  | none =>
    simp only [bind, Except.bind, hoffset, hnumber, pure, Except.pure]
    split <;> rfl
  | some c =>
    have hle := UInt64.not_lt.2 (hceiling c rfl)
    simp only [bind, Except.bind, hoffset, hnumber, pure, Except.pure, if_neg hle]
    split <;> rfl

namespace QuerySite

variable {site : QuerySite} {r : Resource} {params : Params}

/-- Only the values of the keys that are not reserved matter. -/
theorem readKeys_congr {other : Params} (h : ∀ key ∉ Query.reserved, params.all key = other.all key)
    (keys : List String) (es : Embeds) :
    site.readKeys r params keys es = site.readKeys r other keys es := by
  induction keys generalizing es with
  | nil => rfl
  | cons key keys ih =>
    by_cases hkey : key ∈ Query.reserved
    · rw [readKeys, if_pos hkey, readKeys, if_pos hkey, ih]
    · simp only [readKeys, if_neg hkey, h key hkey, ih]

theorem addField_withWindow {q changed : Query} {entry : String}
    (h : site.addField r q entry = .ok changed) (window : Window) :
    site.addField r { q with window } entry = .ok { changed with window } := by
  obtain ⟨hops, target, f, hcross, hembedded, hf, hreadable, rfl⟩ := addField_eq_ok.1 h
  refine addField_eq_ok.2 ⟨hops, target, f, hcross, hembedded, hf, hreadable, ?_⟩
  unfold Query.select
  split <;> rfl

theorem foldlM_addField_withWindow {q changed : Query} {entries : List String}
    (h : entries.foldlM (site.addField r) q = .ok changed) (window : Window) :
    entries.foldlM (site.addField r) { q with window } = .ok { changed with window } := by
  induction entries generalizing q with
  | nil =>
    cases h
    rfl
  | cons entry entries ih =>
    rw [List.foldlM_cons] at h ⊢
    obtain ⟨next, hnext, h⟩ := Except.bind_eq_ok.1 h
    exact Except.bind_eq_ok.2 ⟨_, addField_withWindow hnext window, ih h⟩

/-- A page size within the ceiling and a page number set the window and nothing else. -/
theorem read_onPage {q : Query} (hopen : params.OpenWindow) {size page : UInt64} (hsize : 0 < size)
    (hpage : 0 < page) (hceiling : ∀ c, site.ceilingOf r = some c → size ≤ c)
    (h : site.read r params = .ok q) :
    site.read r (params.onPage size page) = .ok { q with window := .ofPage size page } := by
  have hkept : ∀ key, key ≠ "limit" → key ≠ "page" →
      (params.onPage size page).all key = params.all key := by
    intro key hlimit hnumber
    have hnone : Params.all ⟨[("limit", toString size), ("page", toString page)]⟩ key = [] :=
      Params.all_eq_nil (by simp [hlimit, hnumber])
    rw [Params.onPage, Params.all_append, hnone, List.append_nil]
  obtain ⟨added, hkeys, hadded⟩ := Params.exists_keys_append params
    [("limit", toString size), ("page", toString page)]
  obtain ⟨window, -, h⟩ := Except.bind_eq_ok.1 h
  obtain ⟨es, hes, h⟩ := Except.bind_eq_ok.1 h
  obtain ⟨⟨found, flat⟩, hfound, h⟩ := Except.bind_eq_ok.1 h
  obtain ⟨filter, hfilter, h⟩ := Except.bind_eq_ok.1 h
  obtain ⟨selected, hselected, h⟩ := Except.bind_eq_ok.1 h
  refine Except.bind_eq_ok.2 ⟨_, Window.ofParams_onPage hopen hsize hpage hceiling, ?_⟩
  refine Except.bind_eq_ok.2 ⟨es, by rw [hkept _ (by decide) (by decide), hes], ?_⟩
  refine Except.bind_eq_ok.2 ⟨(found, flat), ?_, ?_⟩
  · rw [Params.onPage, hkeys, readKeys_append_reserved, ← hfound]
    · refine readKeys_congr (fun key hkey => hkept key ?_ ?_) _ _
      · exact fun hlimit => hkey (hlimit ▸ by decide)
      · exact fun hnumber => hkey (hnumber ▸ by decide)
    · intro key hkey
      have hnew : key ∈ ["limit", "page"] := hadded key hkey
      rcases List.mem_pair.1 hnew with rfl | rfl <;> decide
  refine Except.bind_eq_ok.2 ⟨filter, by rw [hkept _ (by decide) (by decide), hfilter], ?_⟩
  refine Except.bind_eq_ok.2 ⟨{ selected with window := .ofPage size page }, ?_, ?_⟩
  · rw [hkept _ (by decide) (by decide)]
    exact foldlM_addField_withWindow hselected _
  have hsort : (params.onPage size page).first? "sort" = params.first? "sort" := by
    rw [Params.onPage, Params.first?_append]
    exact Option.or_none
  rw [hsort]
  split at h
  · cases h
    rfl
  · obtain ⟨sorts, hsorts, h⟩ := Except.bind_eq_ok.1 h
    cases h
    exact Except.bind_eq_ok.2 ⟨sorts, hsorts, rfl⟩

end QuerySite

end NestedResources
