import NestedResources.Proofs.Store.Keyed
import NestedResources.Proofs.Store.Order

/-!
# Rows in the order of their identities

Integers, texts and truth values are ordered, each kind for itself, and so are identities of them. The
first of sorted rows is the one with the least identity.
-/
namespace NestedResources

namespace Sorting

variable {α β : Type} {cmp : α → α → Ordering} {p : α → Prop}

/-- Whether items that satisfy `p` are ordered without ties. -/
structure OrdersStrictly (cmp : α → α → Ordering) (p : α → Prop) : Prop extends Orders cmp p where
  eq : ∀ a b, p a → p b → cmp a b = .eq → a = b

/-- Items that compare like their keys, which tell them apart. -/
theorem ordersStrictly_of_key [Ord β] [Std.TransOrd β] [Std.LawfulEqOrd β] (key : α → β)
    (h : ∀ a b, p a → p b → cmp a b = compare (key a) (key b))
    (hinjective : ∀ a b, p a → p b → key a = key b → a = b) : OrdersStrictly cmp p where
  swap a b ha hb := by rw [h a b ha hb, h b a hb ha, @Std.OrientedCmp.eq_swap β compare]
  trans a b c ha hb hc := by
    rw [h a b ha hb, h b c hb hc, h a c ha hc]
    simp only [Ordering.ne_gt_iff_isLE]
    exact Std.TransCmp.isLE_trans
  eq a b ha hb heq := hinjective a b ha hb (Std.LawfulEqCmp.eq_of_compare (h a b ha hb ▸ heq))

end Sorting

namespace FieldType

/-- The order of two values of a type. -/
def order (type : FieldType) (v w : Json) : Ordering :=
  (compareValues type v w).getD (compare v.compact w.compact)

def integerOf : Json → Int
  | .num n => n.toInt64?.getD 0
  | _ => 0

def textOf : Json → String
  | .str s => s
  | _ => ""

def truthOf : Json → Bool
  | .bool b => b
  | _ => false

theorem integer_cases {v : Json} (h : integer.admits v = true) :
    ∃ n, v = .int n ∧ (Number.int n).toInt64? = some n := by
  cases v with
  | num m =>
    obtain ⟨n, hn⟩ := Option.isSome_iff_exists.1 h
    obtain rfl := Number.toInt64?_eq_some hn
    exact ⟨n, rfl, hn⟩
  | _ => cases h

theorem string_cases {v : Json} (h : string.admits v = true) : ∃ s, v = .str s := by
  cases v with
  | str s => exact ⟨s, rfl⟩
  | _ => cases h

theorem boolean_cases {v : Json} (h : boolean.admits v = true) : ∃ b, v = .bool b := by
  cases v with
  | bool b => exact ⟨b, rfl⟩
  | _ => cases h

/-- Values of an exact type are ordered without ties. -/
theorem ordersStrictly (type : FieldType) :
    Sorting.OrdersStrictly type.order fun v => type.admits v = true := by
  cases type with
  | integer =>
    refine Sorting.ordersStrictly_of_key integerOf (fun v w hv hw => ?_) fun v w hv hw h => ?_
    all_goals
      obtain ⟨m, rfl, hm⟩ := integer_cases hv
      obtain ⟨n, rfl, hn⟩ := integer_cases hw
    · simp [order, compareValues, Number.compare, integerOf, Json.int, hm, hn]
    · simpa [integerOf, Json.int, hm, hn] using h
  | string =>
    refine Sorting.ordersStrictly_of_key textOf (fun v w hv hw => ?_) fun v w hv hw h => ?_
    all_goals
      obtain ⟨s, rfl⟩ := string_cases hv
      obtain ⟨t, rfl⟩ := string_cases hw
    · rfl
    · exact congrArg Json.str h
  | boolean =>
    refine Sorting.ordersStrictly_of_key truthOf (fun v w hv hw => ?_) fun v w hv hw h => ?_
    all_goals
      obtain ⟨a, rfl⟩ := boolean_cases hv
      obtain ⟨b, rfl⟩ := boolean_cases hw
    · cases a <;> cases b <;> rfl
    · exact congrArg Json.bool h
  | number | dateTime | json =>
    exact Sorting.ordersStrictly_of_key integerOf (fun _ _ h => by cases h) fun _ _ h => by cases h

end FieldType

/-! ## Identities -/

namespace Resource

variable {r : Resource}

/-- The order of values of fields, the first field first. -/
def orderOf : List Field → List Json → List Json → Ordering
  | f :: fs, v :: vs, w :: ws => (f.type.order v w).then (orderOf fs vs ws)
  | _, _, _ => .eq

/-- The order of the identities of a resource. -/
def order (r : Resource) (i j : Identity) : Ordering := orderOf r.identityFields i.values j.values

/-- Values of exact types are ordered without ties, field by field. -/
theorem ordersStrictly_orderOf (fields : List Field) :
    Sorting.OrdersStrictly (orderOf fields) (List.Forall₂ (fun f v => f.type.admits v = true) fields) := by
  induction fields with
  | nil =>
    refine ⟨⟨fun _ _ ha hb => ?_, fun _ _ _ ha hb hc => ?_⟩, fun _ _ ha hb _ => ?_⟩
    · cases ha; cases hb; rfl
    · cases ha; cases hb; cases hc; exact fun h _ => h
    · cases ha; cases hb; rfl
  | cons f fs ih =>
    have hf := f.type.ordersStrictly
    refine ⟨⟨fun _ _ ha hb => ?_, fun _ _ _ ha hb hc => ?_⟩, fun _ _ ha hb heq => ?_⟩
    · obtain _ | ⟨hv, hvs⟩ := ha
      obtain _ | ⟨hw, hws⟩ := hb
      rw [orderOf, orderOf, Ordering.swap_then, hf.swap _ _ hv hw, ih.swap _ _ hvs hws]
    · obtain _ | @⟨_, v, _, vs, hv, hvs⟩ := ha
      obtain _ | @⟨_, w, _, ws, hw, hws⟩ := hb
      obtain _ | @⟨_, u, _, us, hu, hus⟩ := hc
      intro hvw hwu
      simp only [orderOf] at hvw hwu ⊢
      -- Where first values are equal the others decide; otherwise the first ones go up.
      cases hfirst : f.type.order v w with
      | gt =>
        rw [hfirst] at hvw
        exact absurd rfl hvw
      | eq =>
        obtain rfl := hf.eq _ _ hv hw hfirst
        rw [hfirst] at hvw
        cases hsecond : f.type.order v u with
        | gt =>
          rw [hsecond] at hwu
          exact absurd rfl hwu
        | lt => exact nofun
        | eq =>
          rw [hsecond] at hwu
          exact ih.trans _ _ _ hvs hws hus hvw hwu
      | lt =>
        have hup : f.type.order w u ≠ .gt := fun hgt => hwu (by rw [hgt]; rfl)
        have hboth := hf.trans _ _ _ hv hw hu (by rw [hfirst]; exact nofun) hup
        cases hthird : f.type.order v u with
        | gt => exact absurd hthird hboth
        | lt => exact nofun
        | eq =>
          obtain rfl := hf.eq _ _ hv hu hthird
          rw [hf.swap _ _ hv hw, hfirst] at hup
          exact absurd rfl hup
    · obtain _ | ⟨hv, hvs⟩ := ha
      obtain _ | ⟨hw, hws⟩ := hb
      obtain ⟨hfirst, hrest⟩ := Ordering.then_eq_eq.1 heq
      rw [hf.eq _ _ hv hw hfirst, ih.eq _ _ hvs hws hrest]

/-- Fitting identities are ordered without ties. -/
theorem ordersStrictly (r : Resource) : Sorting.OrdersStrictly r.order r.Fits where
  swap _ _ := (ordersStrictly_orderOf r.identityFields).swap _ _
  trans _ _ _ := (ordersStrictly_orderOf r.identityFields).trans _ _ _
  eq _ _ hi hj h := congrArg Identity.mk ((ordersStrictly_orderOf r.identityFields).eq _ _ hi hj h)

/-- Rows are in the order of their identities. -/
theorem compare_eq_order {left right : Record} {i j : Identity} (hi : r.identityOf? left = some i)
    (hj : r.identityOf? right = some j) : Record.compare r [] left right = r.order i j := by
  replace hi := identityOf?_eq_some.1 hi
  replace hj := identityOf?_eq_some.1 hj
  unfold Record.compare order
  generalize r.identityFields = fields at hi hj
  generalize i.values = vs at hi
  generalize j.values = ws at hj
  induction hi generalizing ws with
  | nil => rfl
  | cons hv _ ih =>
    cases hj with
    | cons hw hws =>
      simp only [List.map_cons, List.map_nil, List.foldr_cons, List.foldr_nil] at ih ⊢
      rw [ih _ hws, Record.compareBy, hv, hw]
      rfl

/-- Rows with fitting identities are ordered by them. -/
theorem orders_compare (r : Resource) : Sorting.Orders (Record.compare r [])
    fun record => ∃ i, r.identityOf? record = some i ∧ r.Fits i where
  swap := by
    rintro a b ⟨i, hi, hfits⟩ ⟨j, hj, hjfits⟩
    rw [compare_eq_order hi hj, compare_eq_order hj hi, r.ordersStrictly.swap i j hfits hjfits]
  trans := by
    rintro a b c ⟨i, hi, hfits⟩ ⟨j, hj, hjfits⟩ ⟨k, hk, hkfits⟩
    rw [compare_eq_order hi hj, compare_eq_order hj hk, compare_eq_order hi hk]
    exact r.ordersStrictly.trans i j k hfits hjfits hkfits

end Resource

end NestedResources
