import Mathlib.Data.List.Basic
import NestedResources.Proofs.Except
import NestedResources.Read.Reading

/-!
# Sorted rows

Sorting permutes, and puts keys in order. Orders are made of orders, each deciding where those before leave
ties. Rows are ordered by their identity at last, so that asking for an order by identity, or by its first
fields, changes nothing.
-/
namespace NestedResources

namespace Sorting

variable {α : Type}

theorem insertDescending_perm (cmp : α → α → Ordering) (a : α) (sorted : List α) :
    (insertDescending cmp a sorted).Perm (a :: sorted) := by
  induction sorted with
  | nil => exact .refl _
  | cons b bs ih =>
    unfold insertDescending
    split
    · exact (ih.cons b).trans (.swap a b bs)
    · exact .refl _

theorem sort_perm (cmp : α → α → Ordering) (items : List α) : (sort cmp items).Perm items := by
  suffices h : ∀ sorted : List α,
      (items.foldl (fun sorted a => insertDescending cmp a sorted) sorted).Perm (items ++ sorted) by
    have hsorted := h []
    rw [List.append_nil] at hsorted
    exact (List.reverse_perm _).trans hsorted
  induction items with
  | nil => exact fun sorted => .refl _
  | cons a items ih =>
    intro sorted
    refine (ih _).trans ?_
    exact ((insertDescending_perm cmp a sorted).append_left items).trans List.perm_middle

@[simp] theorem mem_sort {cmp : α → α → Ordering} {items : List α} {a : α} :
    a ∈ sort cmp items ↔ a ∈ items := (sort_perm cmp items).mem_iff

/-- Whether items that satisfy `p` are ordered, with ties. -/
structure Orders (cmp : α → α → Ordering) (p : α → Prop) : Prop where
  swap : ∀ a b, p a → p b → cmp b a = (cmp a b).swap
  trans : ∀ a b c, p a → p b → p c → cmp a b ≠ .gt → cmp b c ≠ .gt → cmp a c ≠ .gt

theorem pairwise_insertDescending {cmp : α → α → Ordering} {p : α → Prop} (horders : Orders cmp p) {a : α}
    (ha : p a) {sorted : List α} (hsorted : ∀ b ∈ sorted, p b)
    (h : sorted.Pairwise fun b c => cmp c b ≠ .gt) :
    (insertDescending cmp a sorted).Pairwise fun b c => cmp c b ≠ .gt := by
  induction sorted with
  | nil => simp [insertDescending]
  | cons b bs ih =>
    obtain ⟨hb, hbs⟩ := List.pairwise_cons.1 h
    obtain ⟨hpb, hpbs⟩ := List.forall_mem_cons.1 hsorted
    unfold insertDescending
    split
    · rename_i hlt
      refine List.pairwise_cons.2 ⟨fun c hc => ?_, ih hpbs hbs⟩
      rcases List.mem_cons.1 ((insertDescending_perm cmp a bs).mem_iff.1 hc) with rfl | hc
      · rw [hlt]
        decide
      · exact hb c hc
    · rename_i hlt
      have hba : cmp b a ≠ .gt := fun hgt => hlt (by rw [horders.swap b a hpb ha, hgt]; rfl)
      refine List.pairwise_cons.2 ⟨fun c hc => ?_, h⟩
      rcases List.mem_cons.1 hc with rfl | hc
      · exact hba
      · exact horders.trans c b a (hpbs c hc) hpb ha (hb c hc) hba

/-- Sorted items are in ascending order. -/
theorem pairwise_sort {cmp : α → α → Ordering} {p : α → Prop} (horders : Orders cmp p) {items : List α}
    (hitems : ∀ a ∈ items, p a) : (sort cmp items).Pairwise fun a b => cmp a b ≠ .gt := by
  suffices h : ∀ sorted : List α, (∀ b ∈ sorted, p b) → sorted.Pairwise (fun b c => cmp c b ≠ .gt) →
      (items.foldl (fun sorted a => insertDescending cmp a sorted) sorted).Pairwise
        fun b c => cmp c b ≠ .gt from List.pairwise_reverse.2 (h [] nofun .nil)
  induction items with
  | nil => exact fun sorted _ h => h
  | cons a items ih =>
    obtain ⟨ha, hitems⟩ := List.forall_mem_cons.1 hitems
    intro sorted hsorted h
    refine ih hitems _ (fun b hb => ?_) (pairwise_insertDescending horders ha hsorted h)
    rcases List.mem_cons.1 ((insertDescending_perm cmp a sorted).mem_iff.1 hb) with rfl | hb
    · exact ha
    · exact hsorted b hb

/-- The first of sorted items is a least one. -/
theorem least_of_head? {cmp : α → α → Ordering} {p : α → Prop} (horders : Orders cmp p) {items : List α}
    (hitems : ∀ a ∈ items, p a) {a : α} (h : (sort cmp items).head? = some a) :
    a ∈ items ∧ ∀ b ∈ items, cmp a b ≠ .gt := by
  have hmem : a ∈ items := mem_sort.1 (List.mem_of_head? h)
  have hpairwise := pairwise_sort horders hitems
  refine ⟨hmem, fun b hb => ?_⟩
  obtain ⟨rest, hrest⟩ := List.head?_eq_some_iff.1 h
  rw [hrest] at hpairwise
  rcases List.mem_cons.1 (hrest ▸ mem_sort.2 hb) with rfl | hb
  · intro hgt
    have hswap := horders.swap b b (hitems b hmem) (hitems b hmem)
    rw [hgt] at hswap
    cases hswap
  · exact (List.pairwise_cons.1 hpairwise).1 b hb

/-- Numbers are ordered. -/
theorem orders_compare (key : α → Nat) : Orders (fun a b => compare (key a) (key b)) fun _ => True where
  swap _ _ _ _ := (Nat.compare_swap _ _).symm
  trans a b c _ _ _ hab hbc := by
    rw [Nat.compare_ne_gt] at *
    omega

/-! ## Orders made of orders -/

section Combined

variable {β ι : Type} {cmp other : α → α → Ordering} {p q : α → Prop}

theorem Orders.mono (h : Orders cmp p) (hpq : ∀ a, q a → p a) : Orders cmp q where
  swap a b ha hb := h.swap a b (hpq a ha) (hpq b hb)
  trans a b c ha hb hc := h.trans a b c (hpq a ha) (hpq b hb) (hpq c hc)

theorem Orders.congr (h : Orders cmp p) (heq : ∀ a b, p a → p b → other a b = cmp a b) : Orders other p where
  swap a b ha hb := by rw [heq a b ha hb, heq b a hb ha, h.swap a b ha hb]
  trans a b c ha hb hc := by
    rw [heq a b ha hb, heq b c hb hc, heq a c ha hc]
    exact h.trans a b c ha hb hc

theorem Orders.comap (h : Orders cmp p) (f : β → α) : Orders (fun a b => cmp (f a) (f b)) fun b => p (f b) where
  swap a b := h.swap (f a) (f b)
  trans a b c := h.trans (f a) (f b) (f c)

theorem orders_of_ord [Ord α] [Std.TransOrd α] (p : α → Prop) : Orders (compare : α → α → Ordering) p where
  swap _ _ _ _ := Std.OrientedCmp.eq_swap
  trans a b c _ _ _ hab hbc := by
    simp only [Ordering.ne_gt_iff_isLE] at hab hbc ⊢
    exact Std.TransCmp.isLE_trans hab hbc

theorem Orders.reverse (h : Orders cmp p) : Orders (fun a b => (cmp a b).swap) p where
  swap a b ha hb := congrArg Ordering.swap (h.swap a b ha hb)
  trans a b c ha hb hc hab hbc := by
    rw [← h.swap _ _ ha hb] at hab
    rw [← h.swap _ _ hb hc] at hbc
    rw [← h.swap _ _ ha hc]
    exact h.trans c b a hc hb ha hbc hab

theorem Orders.eq_of_between (h : Orders cmp p) {a b c : α} (ha : p a) (hb : p b) (hc : p c)
    (hab : cmp a b ≠ .gt) (hbc : cmp b c ≠ .gt) (hac : cmp a c = .eq) : cmp a b = .eq ∧ cmp b c = .eq := by
  have hca : cmp c a ≠ .gt := by rw [h.swap a c ha hc, hac]; decide
  have hba := h.trans b c a hb hc ha hbc hca
  have hcb := h.trans c a b hc ha hb hca hab
  rw [h.swap a b ha hb] at hba
  rw [h.swap b c hb hc] at hcb
  constructor
  · cases hfirst : cmp a b <;> simp_all
  · cases hsecond : cmp b c <;> simp_all

/-- A second order decides where the first one leaves ties; it has to order these only. -/
theorem Orders.refine (h : Orders cmp p) (hswap : ∀ a b, p a → p b → other b a = (other a b).swap)
    (htrans : ∀ a b c, p a → p b → p c → cmp a b = .eq → cmp b c = .eq →
      other a b ≠ .gt → other b c ≠ .gt → other a c ≠ .gt) :
    Orders (fun a b => (cmp a b).then (other a b)) p where
  swap a b ha hb := by
    rw [h.swap a b ha hb, hswap a b ha hb, Ordering.swap_then]
  trans a b c ha hb hc hab hbc := by
    have hab1 : cmp a b ≠ .gt := fun hgt => hab (by rw [hgt]; rfl)
    have hbc1 : cmp b c ≠ .gt := fun hgt => hbc (by rw [hgt]; rfl)
    have hac1 := h.trans a b c ha hb hc hab1 hbc1
    cases hac : cmp a c with
    | lt => exact fun hgt => by cases hgt
    | gt => exact absurd hac hac1
    | eq =>
      obtain ⟨hfirst, hsecond⟩ := h.eq_of_between ha hb hc hab1 hbc1 hac
      rw [hfirst] at hab
      rw [hsecond] at hbc
      exact htrans a b c ha hb hc hfirst hsecond hab hbc

theorem Orders.lexicographic (h : Orders cmp p) (h' : Orders other p) :
    Orders (fun a b => (cmp a b).then (other a b)) p :=
  h.refine h'.swap fun a b c ha hb hc _ _ => h'.trans a b c ha hb hc

/-- Several orders, each deciding where those before leave ties. -/
theorem Orders.foldr (h : Orders cmp p) (f : ι → α → α → Ordering) {l : List ι} (hl : ∀ i ∈ l, Orders (f i) p) :
    Orders (fun a b => (l.map fun i => f i a b).foldr Ordering.then (cmp a b)) p := by
  induction l with
  | nil => exact h
  | cons i l ih =>
    obtain ⟨hi, hl⟩ := List.forall_mem_cons.1 hl
    exact hi.lexicographic (ih hl)

/-- Items of different ranks are ordered by rank, those of each rank for themselves. -/
theorem orders_of_rank (rank : α → Nat) (hswap : ∀ a b, p a → p b → cmp b a = (cmp a b).swap)
    (hbelow : ∀ a b, p a → p b → rank a < rank b → cmp a b = .lt)
    (hsame : ∀ k, Orders cmp fun a => p a ∧ rank a = k) : Orders cmp p := by
  have hranks : Orders (fun a b => compare (rank a) (rank b)) p :=
    (orders_compare rank).mono fun _ _ => trivial
  refine (hranks.refine hswap fun a b c ha hb hc hab hbc => ?_).congr fun a b ha hb => ?_
  · have hab := Nat.compare_eq_eq.1 hab
    have hbc := Nat.compare_eq_eq.1 hbc
    exact (hsame (rank a)).trans a b c ⟨ha, rfl⟩ ⟨hb, hab.symm⟩ ⟨hc, by rw [hab, hbc]⟩
  · rcases Nat.lt_trichotomy (rank a) (rank b) with hlt | heq | hgt
    · rw [hbelow a b ha hb hlt, Nat.compare_eq_lt.2 hlt]
      rfl
    · rw [Nat.compare_eq_eq.2 heq]
      rfl
    · rw [hswap b a hb ha, hbelow b a hb ha hgt, Nat.compare_eq_gt.2 hgt]
      rfl

theorem foldr_swap (l : List ι) (f g : ι → Ordering) (h : ∀ i ∈ l, g i = (f i).swap) (base : Ordering) :
    (l.map g).foldr Ordering.then base.swap = ((l.map f).foldr Ordering.then base).swap := by
  induction l with
  | nil => rfl
  | cons i l ih =>
    obtain ⟨hi, hl⟩ := List.forall_mem_cons.1 h
    rw [List.map_cons, List.foldr_cons, ih hl, hi, List.map_cons, List.foldr_cons, Ordering.swap_then]

theorem eq_of_foldr_eq {orders : List Ordering} {base : Ordering}
    (h : orders.foldr Ordering.then base = .eq) : base = .eq := by
  induction orders with
  | nil => exact h
  | cons o orders ih => exact ih (Ordering.then_eq_eq.1 h).2

end Combined

end Sorting

theorem SortKey.column_eq_ok {r : Resource} {s : SortKey} {c : ColumnSort}
    (h : s.column r = .ok c) :
    ∃ f, r.field? s.field = some f ∧ c = ⟨f.column, f.type, s.order⟩ := by
  unfold SortKey.column at h
  split at h
  · rename_i f hf
    split at h
    · cases h
      exact ⟨f, hf, rfl⟩
    · cases h
  · cases h

namespace Resource

/-- The columns of a sort list. -/
def columns (r : Resource) (sorts : List SortKey) : List ColumnSort :=
  sorts.filterMap fun s => (s.column r).toOption

theorem columns_of_mapM {r : Resource} {sorts : List SortKey} {cs : List ColumnSort}
    (h : sorts.mapM (SortKey.column r) = .ok cs) : r.columns sorts = cs := by
  replace h := Except.mapM_eq_ok.1 h
  induction h with
  | nil => rfl
  | cons hc _ ih => rw [columns, List.filterMap_cons_some (by rw [hc]; rfl), ← columns, ih]

/-- Ascending by the first identity fields. -/
def identitySorts (r : Resource) (fields : Nat) : List SortKey :=
  (r.identity.take fields).map fun name => ⟨name, .asc⟩

/-- The columns of ascending fields are the columns of the fields. -/
theorem columns_of_ascending {r : Resource} {names : List String} {cs : List ColumnSort}
    (h : (names.map fun name => SortKey.mk name .asc).mapM (SortKey.column r) = .ok cs) :
    cs = (names.filterMap r.field?).map fun f => ⟨f.column, f.type, .asc⟩ := by
  replace h := List.forall₂_map_left_iff.1 (Except.mapM_eq_ok.1 h)
  induction h with
  | nil => rfl
  | cons hc _ ih =>
    obtain ⟨f, hf, rfl⟩ := SortKey.column_eq_ok hc
    rw [List.filterMap_cons_some hf, List.map_cons, ← ih]

end Resource

namespace Record

/-- Comparing by a part first that is compared by anyway changes nothing. -/
theorem foldr_then_append (first rest : List Ordering) :
    first.foldr Ordering.then ((first ++ rest).foldr Ordering.then .eq)
      = (first ++ rest).foldr Ordering.then .eq := by
  induction first with
  | nil => rfl
  | cons o first ih =>
    cases o with
    | lt => rfl
    | eq => exact ih
    | gt => rfl

/-- The order by the first identity fields is the order without sorts. -/
theorem compare_identitySorts {r : Resource} {fields : Nat} {cs : List ColumnSort}
    (h : (r.identitySorts fields).mapM (SortKey.column r) = .ok cs) :
    compare r cs = compare r [] := by
  funext left right
  obtain rfl := Resource.columns_of_ascending h
  let order (f : Field) : Ordering := left.compareBy right f.column f.type
  have hsplit : r.identityFields.map order = ((r.identity.take fields).filterMap r.field?).map order
      ++ ((r.identity.drop fields).filterMap r.field?).map order := by
    rw [← List.map_append, ← List.filterMap_append, List.take_append_drop]
    rfl
  have hcompare := foldr_then_append (((r.identity.take fields).filterMap r.field?).map order)
    (((r.identity.drop fields).filterMap r.field?).map order)
  rw [← hsplit] at hcompare
  simpa [compare, SortOrder.apply, Function.comp_def, order] using hcompare

end Record

end NestedResources
