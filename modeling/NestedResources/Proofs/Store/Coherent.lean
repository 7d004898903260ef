import NestedResources.Proofs.Number.Nearest
import NestedResources.Proofs.Number.Rendered
import NestedResources.Proofs.Store.Least
import NestedResources.Proofs.Write.BothEnds

/-!
# Values that are ordered

Texts come before numbers, and numbers before all other values, which are in the order of their own texts.
Numbers are ordered unless a double is equal to several integers that are told apart among themselves, and
texts unless some of them name instants and some do not (`FieldType.orders_iff_coherent`).
-/
namespace NestedResources

/-! ## Numbers -/

namespace Number

variable {m n : Number}

/-- The order of the integers among numbers of one double. -/
def tie (m n : Number) : Ordering :=
  match m.toInt64?, n.toInt64? with
  | some a, some b => Ord.compare a b
  | _, _ => .eq

theorem tie_swap (m n : Number) : n.tie m = (m.tie n).swap := by
  have hints : ∀ a b : Int, Ord.compare b a = (Ord.compare a b).swap := fun a b => Std.OrientedCmp.eq_swap
  unfold tie
  cases m.toInt64? <;> cases n.toInt64?
  case some.some a b => exact hints a b
  all_goals rfl

/-- Numbers are ordered by their doubles, and integers of 64 bits then by themselves. -/
theorem compare_eq (hm : m.InRange) (hn : n.InRange) :
    m.compare n = some ((Ord.compare m.nearest n.nearest).then (m.tie n)) := by
  obtain ⟨x, hx⟩ := exists_toBinary64? hm
  obtain ⟨y, hy⟩ := exists_toBinary64? hn
  have hnear : x.compare y = Ord.compare m.nearest n.nearest := by
    rw [nearest, nearest, hx, hy]
    rfl
  unfold compare tie
  cases hmi : m.toInt64? with
  | none => simp [hx, hy, hnear]
  | some a =>
    cases hni : n.toInt64? with
    | none => simp [hx, hy, hnear]
    | some b =>
      obtain rfl := toInt64?_eq_some hmi
      obtain rfl := toInt64?_eq_some hni
      dsimp only
      rcases Int.lt_trichotomy a b with hlt | rfl | hgt
      · have hle := nearest_le hm hn hlt.le
        rw [compare_lt_iff_lt.2 hlt]
        rcases Int.lt_or_eq_of_le hle with hlt | heq
        · rw [compare_lt_iff_lt.2 hlt]
          rfl
        · rw [compare_eq_iff_eq.2 heq]
          rfl
      · rw [compare_eq_iff_eq.2 rfl, compare_eq_iff_eq.2 rfl]
        rfl
      · have hle := nearest_le hn hm hgt.le
        rw [compare_gt_iff_gt.2 hgt]
        rcases Int.lt_or_eq_of_le hle with hlt | heq
        · rw [compare_gt_iff_gt.2 hlt]
          rfl
        · rw [compare_eq_iff_eq.2 heq.symm]
          rfl

end Number

namespace Json

/-- A number is such as documents have. -/
def InRange : Json → Prop
  | num n => n.InRange
  | _ => True

instance (v : Json) : Decidable v.InRange :=
  match v with
  | num (.int i) => inferInstanceAs (Decidable (-0x8000000000000000 ≤ i ∧ i < 0x10000000000000000))
  | num (.float _) | null | bool _ | str _ | arr _ | obj _ => inferInstanceAs (Decidable True)

/-- An integer is one that has a double of its own. -/
def fitsDouble : Json → Bool
  | num (.int i) => decide (i.natAbs ≤ 2 ^ 53)
  | _ => true

/-- Texts, numbers, other values. -/
def kind : Json → Nat
  | str _ => 0
  | num _ => 1
  | _ => 2

/-- What kind of value begins with a character. -/
def kindOf (c : Char) : Nat := if c.toNat < 40 then 0 else if c.toNat < 60 then 1 else 2

theorem kindOf_of_isDigit {c : Char} (h : c.isDigit = true) : kindOf c = 1 := by
  obtain ⟨hlow, hhigh⟩ := toNat_of_isDigit h
  unfold kindOf
  split_ifs <;> omega

/-- The text of a number begins with a digit, or a minus. -/
theorem exists_first_text (n : Number) : ∃ c cs, n.text.toList = c :: cs ∧ kindOf c = 1 := by
  cases n with
  | int n =>
    obtain ⟨c, cs, hcs⟩ := List.exists_cons_of_ne_nil (Numeral.toList_toString_ne_nil n.natAbs)
    have hc : c.isDigit = true := Numeral.isDigit_of_mem_repr (by rw [hcs]; exact .head cs)
    have htext : (Number.int n).text.toList = (toString n).toList := rfl
    rw [htext, Numeral.toList_toString_int, hcs]
    split
    · exact ⟨'-', _, rfl, rfl⟩
    · exact ⟨c, cs, rfl, kindOf_of_isDigit hc⟩
  | float x =>
    obtain ⟨cut⟩ := x.shortest.exists_cut
    obtain ⟨c, cs, hcs, hc⟩ := cut.exists_cons
    have htext : (Number.float x).text.toList = (x.render .document).toList := rfl
    rw [htext, Binary64.render]
    split
    · exact ⟨'-', _, by rw [String.toList_append]; rfl, rfl⟩
    · exact ⟨c, cs, hcs, kindOf_of_isDigit hc⟩

theorem exists_first (v : Json) : ∃ c cs, v.compact.toList = c :: cs ∧ v.kind = kindOf c := by
  cases v with
  | null => exact ⟨'n', _, by rw [compact]; rfl, rfl⟩
  | bool b =>
    cases b
    · exact ⟨'f', _, by rw [compact]; rfl, rfl⟩
    · exact ⟨'t', _, by rw [compact]; rfl, rfl⟩
  | num n =>
    obtain ⟨c, cs, htext, hc⟩ := exists_first_text n
    exact ⟨c, cs, by rw [compact, htext], hc.symm⟩
  | str s => exact ⟨'"', _, by rw [compact, quote, String.append_assoc, String.toList_append]; rfl, rfl⟩
  | arr items => exact ⟨'[', _, by rw [compact, String.append_assoc, String.toList_append]; rfl, rfl⟩
  | obj members => exact ⟨'\x7b', _, by rw [compact, String.append_assoc, String.toList_append]; rfl, rfl⟩

/-- The texts of values of different kinds are in the order of the kinds. -/
theorem compare_compact {v w : Json} (h : v.kind < w.kind) : compare v.compact w.compact = .lt := by
  obtain ⟨c, cs, hv, hc⟩ := v.exists_first
  obtain ⟨d, ds, hw, hd⟩ := w.exists_first
  have hlt : c.toNat < d.toNat := by
    rw [hc, hd] at h
    unfold kindOf at h
    split_ifs at h <;> omega
  rw [compare_lt_iff_lt, String.lt_iff_toList_lt, hv, hw, List.cons_lt_cons_iff]
  exact .inl hlt

end Json

/-- Chronological order is an order. -/
theorem Timestamp.orders_compare : Sorting.Orders Timestamp.compare fun _ => True :=
  have hdays := (Sorting.orders_of_ord fun _ : Int => True).comap Timestamp.day
  have hseconds := (Sorting.orders_of_ord fun _ : Nat => True).comap Timestamp.second
  have hnanos := (Sorting.orders_of_ord fun _ : Nat => True).comap Timestamp.nano
  hdays.lexicographic (hseconds.lexicographic hnanos)

/-! ## Values of one type -/

namespace FieldType

variable {type : FieldType} {values : List Json}

theorem compareValues_swap (type : FieldType) (v w : Json) :
    compareValues type w v = (compareValues type v w).map Ordering.swap := by
  have htexts : ∀ s t : String, compare t s = (compare s t).swap := fun s t => Std.OrientedCmp.eq_swap
  cases v <;> cases w <;> try rfl
  case num.num m n => exact m.compare_swap n
  case bool.bool a b => cases a <;> cases b <;> rfl
  case str.str s t =>
    unfold compareValues
    dsimp only
    generalize (if type = .dateTime then Timestamp.ofText? s else none) = a
    generalize (if type = .dateTime then Timestamp.ofText? t else none) = b
    cases a <;> cases b
    case some.some a b => exact congrArg some (Timestamp.orders_compare.swap a b trivial trivial)
    all_goals exact congrArg some (htexts s t)

theorem order_swap (type : FieldType) (v w : Json) : type.order w v = (type.order v w).swap := by
  have htexts : compare w.compact v.compact = (compare v.compact w.compact).swap := Std.OrientedCmp.eq_swap
  rw [order, order, compareValues_swap, htexts]
  cases compareValues type v w <;> rfl

/-- What makes the values of a column ordered. -/
structure Coherent (type : FieldType) (values : List Json) : Prop where
  /-- A number that is no integer of 64 bits has the double of at most one such integer. -/
  rounded : ∀ m n x : Number, .num m ∈ values → .num n ∈ values → .num x ∈ values →
    m.toInt64?.isSome = true → n.toInt64?.isSome = true → x.toInt64? = none →
    m.compare x = some .eq → x.compare n = some .eq → m = n
  /-- Around a text that names no instant the instants are in the order of their texts. -/
  dated : type = .dateTime → ∀ s t u : String, .str s ∈ values → .str t ∈ values → .str u ∈ values →
    compare s t = .lt → compare t u = .lt → ∀ a b, Timestamp.ofText? s = some a → Timestamp.ofText? t = none →
    Timestamp.ofText? u = some b → a.compare b = .lt

/-! ### Values of different kinds -/

theorem order_of_kind {v w : Json} (h : v.kind < w.kind) : type.order v w = .lt := by
  have hnone : compareValues type v w = none := by
    cases v <;> cases w <;> first | rfl | exact absurd h (Nat.lt_irrefl _)
  rw [order, hnone]
  exact Json.compare_compact h

/-- Values that are no texts or numbers are in the order of their texts. -/
theorem orders_others (type : FieldType) : Sorting.Orders type.order fun v => v.kind = 2 := by
  have htexts := (Sorting.orders_of_ord fun _ : String => True).comap Json.compact
  refine (htexts.mono fun _ _ => trivial).congr fun v w hv hw => ?_
  cases v with
  | num n => cases hv
  | str s => cases hv
  | bool a =>
    cases w with
    | num n => cases hw
    | str s => cases hw
    | bool b =>
      change compareBool a b = compare (Json.bool a).compact (Json.bool b).compact
      rw [Json.compact, Json.compact]
      cases a <;> cases b <;> decide
    | _ => rfl
  | _ => rfl

/-! ### Numbers -/

theorem order_num (type : FieldType) {m n : Number} (hm : m.InRange) (hn : n.InRange) :
    type.order (.num m) (.num n) = (compare m.nearest n.nearest).then (m.tie n) := by
  have hsome : compareValues type (.num m) (.num n) = m.compare n := rfl
  rw [order, hsome, Number.compare_eq hm hn, Option.getD_some]

def numberOf : Json → Number
  | .num n => n
  | _ => .int 0

theorem tie_le_of_rounded (hcoherent : type.Coherent values) (hrange : ∀ v ∈ values, v.InRange) {m n k : Number}
    (hm : .num m ∈ values) (hn : .num n ∈ values) (hk : .num k ∈ values)
    (hmn : compare m.nearest n.nearest = .eq) (hnk : compare n.nearest k.nearest = .eq)
    (hfirst : m.tie n ≠ .gt) (hsecond : n.tie k ≠ .gt) : m.tie k ≠ .gt := by
  cases hmi : m.toInt64? with
  | none =>
    rw [Number.tie, hmi]
    exact fun hgt => by cases hgt
  | some a =>
    cases hki : k.toInt64? with
    | none =>
      rw [Number.tie, hmi, hki]
      exact fun hgt => by cases hgt
    | some c =>
      cases hni : n.toInt64? with
      | some b =>
        have hints := Sorting.orders_of_ord fun _ : Int => True
        rw [Number.tie, hmi, hni] at hfirst
        rw [Number.tie, hni, hki] at hsecond
        rw [Number.tie, hmi, hki]
        exact hints.trans a b c trivial trivial trivial hfirst hsecond
      | none =>
        -- A number between two integers that is equal to both is none unless they are one.
        have hleft : m.compare n = some .eq := by
          rw [Number.compare_eq (hrange _ hm) (hrange _ hn), hmn, Number.tie, hmi, hni]
          rfl
        have hright : n.compare k = some .eq := by
          rw [Number.compare_eq (hrange _ hn) (hrange _ hk), hnk, Number.tie, hni, hki]
          rfl
        obtain rfl := hcoherent.rounded m k n hm hk hn (by rw [hmi]; rfl) (by rw [hki]; rfl) hni hleft hright
        simp [Number.tie, hmi]

theorem orders_numbers (hcoherent : type.Coherent values) (hrange : ∀ v ∈ values, v.InRange) :
    Sorting.Orders type.order fun v => v ∈ values ∧ v.kind = 1 := by
  have hnear : Sorting.Orders (fun m n : Number => compare m.nearest n.nearest) fun n => .num n ∈ values :=
    ((Sorting.orders_of_ord fun _ : Int => True).comap Number.nearest).mono fun _ _ => trivial
  have hnumbers := (hnear.refine (fun m n _ _ => Number.tie_swap m n) fun m n k hm hn hk =>
    tie_le_of_rounded hcoherent hrange hm hn hk).comap numberOf
  have hnum : ∀ v : Json, v.kind = 1 → v = .num (numberOf v) := by
    intro v hv
    cases v <;> first | rfl | cases hv
  have hmono := hnumbers.mono (q := fun v => v ∈ values ∧ v.kind = 1) fun v hv => hnum v hv.2 ▸ hv.1
  refine hmono.congr fun v w hv hw => ?_
  have horder := order_num type (hnum v hv.2 ▸ hrange v hv.1) (hnum w hw.2 ▸ hrange w hw.1)
  rwa [← hnum v hv.2, ← hnum w hw.2] at horder

/-! ### Texts -/

theorem order_str (htype : type ≠ .dateTime) (s t : String) : type.order (.str s) (.str t) = compare s t := by
  unfold order compareValues
  simp [htype]

theorem order_instants {s t : String} {a b : Timestamp} (hs : Timestamp.ofText? s = some a)
    (ht : Timestamp.ofText? t = some b) : dateTime.order (.str s) (.str t) = a.compare b := by
  unfold order compareValues
  simp [hs, ht]

theorem order_left {s : String} (hs : Timestamp.ofText? s = none) (t : String) :
    dateTime.order (.str s) (.str t) = compare s t := by
  unfold order compareValues
  simp [hs]

theorem order_right {t : String} (ht : Timestamp.ofText? t = none) (s : String) :
    dateTime.order (.str s) (.str t) = compare s t := by
  unfold order compareValues
  cases hs : Timestamp.ofText? s <;> simp [hs, ht]

/-- Instants around a text that names none. -/
theorem Coherent.lt_of_between (h : dateTime.Coherent values) {s t u : String} {a b : Timestamp}
    (hs : .str s ∈ values) (ht : .str t ∈ values) (hu : .str u ∈ values) (hsi : Timestamp.ofText? s = some a)
    (hti : Timestamp.ofText? t = none) (hui : Timestamp.ofText? u = some b) (hst : compare s t ≠ .gt)
    (htu : compare t u ≠ .gt) : a.compare b = .lt := by
  have hlt : ∀ x y : String, Timestamp.ofText? x ≠ Timestamp.ofText? y → compare x y ≠ .gt →
      compare x y = .lt := by
    intro x y hne hle
    rcases lt_trichotomy x y with hlt | rfl | hgt
    · exact compare_lt_iff_lt.2 hlt
    · exact absurd rfl hne
    · exact absurd (compare_gt_iff_gt.2 hgt) hle
  exact h.dated rfl s t u hs ht hu (hlt s t (by rw [hsi, hti]; exact Option.some_ne_none a) hst)
    (hlt t u (by rw [hti, hui]; exact (Option.some_ne_none b).symm) htu) a b hsi hti hui

/-- Texts that name instants and texts that do not are ordered together if they are coherent. -/
theorem orders_dates (hcoherent : dateTime.Coherent values) :
    Sorting.Orders (fun s t => dateTime.order (.str s) (.str t)) fun s => .str s ∈ values where
  swap s t _ _ := order_swap dateTime (.str s) (.str t)
  trans s t u hs ht hu hst htu := by
    have htexts := Sorting.orders_of_ord fun _ : String => True
    have hswap : ∀ x y : String, compare x y = .gt → compare y x ≠ .gt := by
      intro x y hgt
      rw [htexts.swap x y trivial trivial, hgt]
      decide
    have hbehind : ∀ a b : Timestamp, a.compare b = .lt → b.compare a = .gt := by
      intro a b hlt
      rw [Timestamp.orders_compare.swap a b trivial trivial, hlt]
      rfl
    -- Of three texts one alone that names no instant, or names one, needs a look.
    cases hsi : Timestamp.ofText? s with
    | none =>
      rw [order_left hsi] at hst ⊢
      cases hti : Timestamp.ofText? t with
      | none =>
        rw [order_left hti] at htu
        exact htexts.trans s t u trivial trivial trivial hst htu
      | some b =>
        cases hui : Timestamp.ofText? u with
        | none =>
          rw [order_right hui] at htu
          exact htexts.trans s t u trivial trivial trivial hst htu
        | some c =>
          rw [order_instants hti hui] at htu
          exact fun hgt => htu (hbehind c b (hcoherent.lt_of_between hu hs ht hui hsi hti (hswap s u hgt) hst))
    | some a =>
      cases hti : Timestamp.ofText? t with
      | none =>
        rw [order_right hti] at hst
        rw [order_left hti] at htu
        cases hui : Timestamp.ofText? u with
        | none =>
          rw [order_right hui]
          exact htexts.trans s t u trivial trivial trivial hst htu
        | some c =>
          rw [order_instants hsi hui, hcoherent.lt_of_between hs ht hu hsi hti hui hst htu]
          decide
      | some b =>
        rw [order_instants hsi hti] at hst
        cases hui : Timestamp.ofText? u with
        | none =>
          rw [order_right hui] at htu ⊢
          exact fun hgt => hst (hbehind b a (hcoherent.lt_of_between ht hu hs hti hui hsi htu (hswap s u hgt)))
        | some c =>
          rw [order_instants hti hui] at htu
          rw [order_instants hsi hui]
          exact Timestamp.orders_compare.trans a b c trivial trivial trivial hst htu

theorem orders_texts (hcoherent : type.Coherent values) :
    Sorting.Orders type.order fun v => v ∈ values ∧ v.kind = 0 := by
  have hstr : ∀ v : Json, v.kind = 0 → v = .str (textOf v) := by
    intro v hv
    cases v <;> first | rfl | cases hv
  have htexts : Sorting.Orders (fun s t => type.order (.str s) (.str t)) fun s => .str s ∈ values := by
    by_cases htype : type = .dateTime
    · subst htype
      exact orders_dates hcoherent
    · exact (Sorting.orders_of_ord _).congr fun s t _ _ => order_str htype s t
  have hmono := (htexts.comap textOf).mono (q := fun v => v ∈ values ∧ v.kind = 0) fun v hv => hstr v hv.2 ▸ hv.1
  refine hmono.congr fun v w hv hw => ?_
  rw [← hstr v hv.2, ← hstr w hw.2]

/-! ### All values -/

theorem orders_of_coherent (hcoherent : type.Coherent values) (hrange : ∀ v ∈ values, v.InRange) :
    Sorting.Orders type.order fun v => v ∈ values := by
  refine Sorting.orders_of_rank Json.kind (fun v w _ _ => order_swap type v w)
    (fun v w _ _ => order_of_kind) fun k => ?_
  match k with
  | 0 => exact orders_texts hcoherent
  | 1 => exact orders_numbers hcoherent hrange
  | 2 => exact (orders_others type).mono fun v hv => hv.2
  | k + 3 =>
    refine (orders_others type).mono fun v hv => ?_
    have hkind : v.kind ≤ 2 := by cases v <;> simp [Json.kind]
    omega

theorem order_of_compare {m n : Number} {o : Ordering} (h : m.compare n = some o) :
    type.order (.num m) (.num n) = o := by
  have hsome : compareValues type (.num m) (.num n) = m.compare n := rfl
  rw [order, hsome, h, Option.getD_some]

theorem coherent_of_orders (h : Sorting.Orders type.order (· ∈ values)) : type.Coherent values where
  rounded m n x hm hn hx hmi hni _ hmx hxn := by
    obtain ⟨a, ha⟩ := Option.isSome_iff_exists.1 hmi
    obtain ⟨b, hb⟩ := Option.isSome_iff_exists.1 hni
    have hmn : m.compare n = some (compare a b) := by rw [Number.compare, ha, hb]
    have heq : type.order (.num m) (.num x) = .eq := order_of_compare hmx
    have heq' : type.order (.num x) (.num n) = .eq := order_of_compare hxn
    have hle := h.trans _ _ _ hm hx hn (by rw [heq]; decide) (by rw [heq']; decide)
    have hge := h.trans _ _ _ hn hx hm (by rw [h.swap _ _ hx hn, heq']; decide)
      (by rw [h.swap _ _ hm hx, heq]; decide)
    rw [h.swap _ _ hm hn, order_of_compare hmn] at hge
    rw [order_of_compare hmn] at hle
    obtain rfl : a = b := by
      cases hab : compare a b with
      | eq => exact compare_eq_iff_eq.1 hab
      | gt => exact absurd hab hle
      | lt => exact absurd (by rw [hab]; rfl) hge
    rw [Number.toInt64?_eq_some ha, Number.toInt64?_eq_some hb]
  dated htype s t u hs ht hu hst htu a b hsi hti hui := by
    subst htype
    rw [← order_right hti] at hst
    rw [← order_left hti] at htu
    have hst' : dateTime.order (.str s) (.str t) ≠ .gt := by rw [hst]; decide
    have htu' : dateTime.order (.str t) (.str u) ≠ .gt := by rw [htu]; decide
    have hle := h.trans _ _ _ hs ht hu hst' htu'
    rw [← order_instants hsi hui]
    cases hsu : dateTime.order (.str s) (.str u) with
    | lt => rfl
    | gt => exact absurd hsu hle
    | eq =>
      have hboth := h.eq_of_between hs ht hu hst' htu' hsu
      rw [hst] at hboth
      cases hboth.1

/-- The values of a column are ordered exactly if they are coherent. -/
theorem orders_iff_coherent (hrange : ∀ v ∈ values, v.InRange) :
    Sorting.Orders type.order (· ∈ values) ↔ type.Coherent values :=
  ⟨coherent_of_orders, fun hcoherent => orders_of_coherent hcoherent hrange⟩

/-- Integers up to `2 ^ 53` and texts that all name instants, where these count, are coherent. -/
theorem coherent_of_small (hrange : ∀ v ∈ values, v.InRange) (hsmall : ∀ v ∈ values, v.fitsDouble = true)
    (hdates : type = .dateTime → ∀ s, .str s ∈ values → Timestamp.ofText? s ≠ none) : type.Coherent values where
  rounded m n x hm hn hx hmi hni _ hmx hxn := by
    obtain ⟨a, ha⟩ := Option.isSome_iff_exists.1 hmi
    obtain ⟨b, hb⟩ := Option.isSome_iff_exists.1 hni
    obtain rfl := Number.toInt64?_eq_some ha
    obtain rfl := Number.toInt64?_eq_some hb
    have hmr : (Number.int a).InRange := hrange _ hm
    have hnr : (Number.int b).InRange := hrange _ hn
    have hxr : x.InRange := hrange _ hx
    rw [Number.compare_eq hmr hxr, Option.some.injEq, Ordering.then_eq_eq] at hmx
    rw [Number.compare_eq hxr hnr, Option.some.injEq, Ordering.then_eq_eq] at hxn
    have hnear := (compare_eq_iff_eq.1 hmx.1).trans (compare_eq_iff_eq.1 hxn.1)
    rw [Number.eq_of_nearest_eq (of_decide_eq_true (hsmall _ hm)) (of_decide_eq_true (hsmall _ hn)) hnear]
  dated htype s t u _ ht _ _ _ _ _ _ hti _ := absurd hti (hdates htype t ht)

end FieldType

end NestedResources
