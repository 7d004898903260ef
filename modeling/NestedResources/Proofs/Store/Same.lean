import NestedResources.Proofs.Store.Membership

/-!
# Tables with the same contents

Documents are the same up to the sign of zero, and rows are the same if their columns are. Tables are the
same if they file the same rows under the same keys and have the same links; a table without rows or links
is no different from one that is absent.
-/
namespace NestedResources

/-! ## Documents -/

theorem Number.same_trans {l m n : Number} (h : l.same m = true) (k : m.same n = true) :
    l.same n = true := by
  cases l <;> cases m <;> cases n <;> simp_all [same, Binary64.equals]

mutual

theorem Json.same_trans : ∀ {a b c : Json}, a.same b = true → b.same c = true → a.same c = true
  | .null, b, c, h, k => by
    cases b with
    | null => exact k
    | _ => cases h
  | .bool x, b, c, h, k => by
    cases b with
    | bool y =>
      have hxy : x = y := by simpa [same] using h
      rw [hxy]
      exact k
    | _ => cases h
  | .num m, b, c, h, k => by
    cases b with
    | num n =>
      cases c with
      | num l => exact Number.same_trans h k
      | _ => cases k
    | _ => cases h
  | .str s, b, c, h, k => by
    cases b with
    | str t =>
      have hst : s = t := by simpa [same] using h
      rw [hst]
      exact k
    | _ => cases h
  | .arr xs, b, c, h, k => by
    cases b with
    | arr ys =>
      cases c with
      | arr zs => exact Json.sameItems_trans h k
      | _ => cases k
    | _ => cases h
  | .obj xs, b, c, h, k => by
    cases b with
    | obj ys =>
      cases c with
      | obj zs => exact Json.sameMembers_trans h k
      | _ => cases k
    | _ => cases h

theorem Json.sameItems_trans : ∀ {xs ys zs : List Json}, sameItems xs ys = true →
    sameItems ys zs = true → sameItems xs zs = true
  | [], ys, zs, h, k => by
    cases ys with
    | nil => exact k
    | cons y ys => cases h
  | x :: xs, ys, zs, h, k => by
    cases ys with
    | nil => cases h
    | cons y ys =>
      cases zs with
      | nil => cases k
      | cons z zs =>
        rw [sameItems, Bool.and_eq_true] at h k ⊢
        exact ⟨Json.same_trans h.1 k.1, Json.sameItems_trans h.2 k.2⟩

theorem Json.sameMembers_trans : ∀ {xs ys zs : List (String × Json)}, sameMembers xs ys = true →
    sameMembers ys zs = true → sameMembers xs zs = true
  | [], ys, zs, h, k => by
    cases ys with
    | nil => exact k
    | cons y ys => cases h
  | (key, x) :: xs, ys, zs, h, k => by
    cases ys with
    | nil => cases h
    | cons e ys =>
      cases zs with
      | nil => cases k
      | cons d zs =>
        obtain ⟨l, y⟩ := e
        obtain ⟨m, z⟩ := d
        rw [sameMembers, Bool.and_eq_true, Bool.and_eq_true, beq_iff_eq] at h k ⊢
        exact ⟨⟨h.1.1.trans k.1.1, Json.same_trans h.1.2 k.1.2⟩, Json.sameMembers_trans h.2 k.2⟩

end

/-! ## Rows -/

/-- Values of a column in two rows: absent from both, or the same. -/
abbrev SameColumn (a b : Option Json) : Prop := Option.Rel (fun v w : Json => v.same w = true) a b

theorem SameColumn.refl (a : Option Json) : SameColumn a a := by
  cases a with
  | none => exact .none
  | some v => exact .some (Json.same_refl v)

/-- Columns that stand in order and hold the same values are the same members of a document. -/
theorem Json.sameMembers_of_get? {xs ys : List (String × Json)} (hxs : Entries.Ordered xs)
    (hys : Entries.Ordered ys) (h : ∀ key, SameColumn (Entries.get? key xs) (Entries.get? key ys)) :
    sameMembers xs ys = true := by
  induction xs generalizing ys with
  | nil =>
    cases ys with
    | nil => rfl
    | cons e ys =>
      have hhead := h e.1
      rw [Entries.get?_nil, Entries.get?, if_pos rfl] at hhead
      cases hhead
  | cons d xs ih =>
    cases ys with
    | nil =>
      have hhead := h d.1
      rw [Entries.get?_nil, Entries.get?, if_pos rfl] at hhead
      cases hhead
    | cons e ys =>
      obtain ⟨k, x⟩ := d
      obtain ⟨l, y⟩ := e
      obtain ⟨hfirst, hxs'⟩ := List.pairwise_cons.1 hxs
      obtain ⟨hfirst', hys'⟩ := List.pairwise_cons.1 hys
      -- The least key of one side is found on the other one, so it is the least there too.
      have hkey : k = l := by
        by_contra hne
        have hleft := h k
        have hright := h l
        rw [Entries.get?, if_pos rfl, Entries.get?, if_neg (Ne.symm hne)] at hleft
        rw [Entries.get?, if_neg hne, Entries.get?, if_pos rfl] at hright
        cases hget : Entries.get? k ys with
        | none =>
          rw [hget] at hleft
          cases hleft
        | some v =>
          cases hget' : Entries.get? l xs with
          | none =>
            rw [hget'] at hright
            cases hright
          | some w =>
            have hlt : l < k := hfirst' (k, v) (Entries.mem_of_get? hget)
            have hgt : k < l := hfirst (l, w) (Entries.mem_of_get? hget')
            exact String.lt_irrefl _ (String.lt_trans hlt hgt)
      subst hkey
      have hvalue := h k
      rw [Entries.get?, if_pos rfl, Entries.get?, if_pos rfl] at hvalue
      rw [sameMembers, Bool.and_eq_true, Bool.and_eq_true]
      cases hvalue with
      | some hsame =>
        refine ⟨⟨beq_self_eq_true k, hsame⟩, ih hxs' hys' fun key => ?_⟩
        have hrest := h key
        rw [Entries.get?, Entries.get?] at hrest
        split at hrest
        · rename_i heq
          subst heq
          have hnone : ∀ {zs : List (String × Json)}, (∀ e ∈ zs, k < e.1) → Entries.get? k zs = none := by
            intro zs hzs
            cases hget : Entries.get? k zs with
            | none => rfl
            | some v => exact absurd (hzs _ (Entries.mem_of_get? hget)) (String.lt_irrefl _)
          rw [hnone hfirst, hnone hfirst']
          exact .none
        · exact hrest

theorem Record.same_iff {a b : Record} : a.same b = true ↔ ∀ c, SameColumn (a.get? c) (b.get? c) := by
  constructor
  · intro h c
    cases ha : a.get? c with
    | some v =>
      obtain ⟨w, hw, hsame⟩ := Json.sameMembers_get? h ha
      have hb : b.get? c = some w := hw
      rw [hb]
      exact .some hsame
    | none =>
      cases hb : b.get? c with
      | none => exact .none
      | some w =>
        have hback : Json.sameMembers b.entries a.entries = true := by
          rw [Json.sameMembers_comm]
          exact h
        obtain ⟨v, hv, -⟩ := Json.sameMembers_get? hback hb
        cases ha.symm.trans hv
  · exact fun h => Json.sameMembers_of_get? a.ordered b.ordered h

theorem Record.same_refl (a : Record) : a.same a = true := Json.sameMembers_refl a.entries

/-! ## Tables -/

namespace Tables

/-- The same rows under the same keys, and the same links. -/
structure Same (t u : Tables) : Prop where
  rows : ∀ name key, Option.Rel (fun a b : Record => a.same b = true) (t.rowAt? name key)
    (u.rowAt? name key)
  links : ∀ name, t.linksOf name = u.linksOf name

theorem Same.refl (t : Tables) : t.Same t := by
  refine ⟨fun name key => ?_, fun _ => rfl⟩
  cases t.rowAt? name key with
  | none => exact .none
  | some record => exact .some record.same_refl

end Tables

/-! ## Writing the same values -/

namespace Record

/-- Writing into a column leaves it with what is the same as the value. -/
theorem get?_put_self (state : Record × Bool) (column : String) (value : Json) :
    ∃ v, (put state (column, value)).1.get? column = some v ∧ v.same value = true := by
  rcases put_cases state.1 state.2 (column, value) with ⟨v, hv, hsame, hput⟩ | hput
  · rw [hput]
    exact ⟨v, hv, hsame⟩
  · rw [hput]
    exact ⟨value, Dict.get?_insert_self .., Json.same_refl value⟩

theorem get?_put_of_ne (state : Record × Bool) {column c : String} (h : c ≠ column) (value : Json) :
    (put state (column, value)).1.get? c = state.1.get? c := by
  rcases put_cases state.1 state.2 (column, value) with ⟨_, -, -, hput⟩ | hput
  · rw [hput]
  · rw [hput]
    exact Dict.get?_insert_of_ne state.1 h value

/-- Rows that differ in the columns that are written are the same afterwards. -/
theorem same_foldl_put {assignments : List (String × Json)} {a b : Record × Bool}
    (h : ∀ c, c ∉ assignments.map Prod.fst → SameColumn (a.1.get? c) (b.1.get? c)) :
    (assignments.foldl put a).1.same (assignments.foldl put b).1 = true := by
  induction assignments generalizing a b with
  | nil => exact Record.same_iff.2 fun c => h c List.not_mem_nil
  | cons e rest ih =>
    obtain ⟨column, value⟩ := e
    refine ih fun c hc => ?_
    by_cases hcolumn : c = column
    · obtain ⟨v, hv, hsame⟩ := get?_put_self a column value
      obtain ⟨w, hw, hsame'⟩ := get?_put_self b column value
      rw [hcolumn, hv, hw]
      rw [Json.same_comm] at hsame'
      exact .some (Json.same_trans hsame hsame')
    · rw [get?_put_of_ne a hcolumn, get?_put_of_ne b hcolumn]
      refine h c fun hmem => ?_
      rcases List.mem_cons.1 hmem with heq | hmem
      · exact hcolumn heq
      · exact hc hmem

theorem same_assign {a b : Record} {columns : List String} {values : List Json}
    (hlength : columns.length ≤ values.length) (h : ∀ c ∉ columns, a.get? c = b.get? c) :
    Record.same (a.assign (columns.zip values)).1 (b.assign (columns.zip values)).1 = true := by
  refine same_foldl_put fun c hc => ?_
  rw [List.map_fst_zip hlength] at hc
  change SameColumn (a.get? c) (b.get? c)
  rw [h c hc]
  exact .refl _

end Record

end NestedResources
