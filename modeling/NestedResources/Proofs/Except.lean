import Mathlib.Data.List.Forall2

/-!
# Computations that may fail

When a step, or a step for every item of a list, ends well, and how it goes on.
-/
namespace NestedResources.Except

variable {ε α β : Type}

theorem exists_of_isOk {x : Except ε α} (h : x.isOk = true) : ∃ a, x = .ok a := by
  cases x with
  | error e => cases h
  | ok a => exact ⟨a, rfl⟩

theorem exists_of_not_isOk {x : Except ε α} (h : x.isOk = false) : ∃ e, x = .error e := by
  cases x with
  | error e => exact ⟨e, rfl⟩
  | ok a => cases h

theorem toOption_eq_some {x : Except ε α} {a : α} : x.toOption = some a ↔ x = .ok a := by
  cases x <;> simp [Except.toOption]

theorem bind_eq_ok {x : Except ε α} {f : α → Except ε β} {b : β} :
    x >>= f = .ok b ↔ ∃ a, x = .ok a ∧ f a = .ok b := by
  cases x <;> simp [bind, Except.bind]

theorem bind_eq_error {x : Except ε α} {f : α → Except ε β} {e : ε} :
    x >>= f = .error e ↔ x = .error e ∨ ∃ a, x = .ok a ∧ f a = .error e := by
  cases x <;> simp [bind, Except.bind]

theorem pure_eq_error {a : α} {e : ε} : (pure a : Except ε α) = .error e ↔ False := by
  simp [pure, Except.pure]

theorem bind_of_ok {x : Except ε α} {a : α} {f : α → Except ε β} (hx : x = .ok a) : x >>= f = f a := by
  rw [hx]
  rfl

theorem exists_bind_eq_ok {x : Except ε α} {a : α} {f : α → Except ε β} (hx : x = .ok a)
    (hf : ∃ b, f a = .ok b) : ∃ b, x >>= f = .ok b := by
  rwa [bind_of_ok hx]

/-- Steps that go on alike from what came out before. -/
theorem bind_congr {x : Except ε α} {f g : α → Except ε β} (h : ∀ a, x = .ok a → f a = g a) :
    x >>= f = x >>= g := by
  cases x with
  | error e => rfl
  | ok a => exact h a rfl

theorem map_eq_ok {x : Except ε α} {f : α → β} {b : β} :
    x.map f = .ok b ↔ ∃ a, x = .ok a ∧ f a = b := by
  cases x <;> simp [Except.map]

/-- A step for every item ends well iff each single one does. -/
theorem mapM_eq_ok {f : α → Except ε β} {items : List α} {bs : List β} :
    items.mapM f = .ok bs ↔ List.Forall₂ (fun a b => f a = .ok b) items bs := by
  induction items generalizing bs with
  | nil => cases bs <;> simp [pure, Except.pure]
  | cons a items ih =>
    rw [List.mapM_cons]
    constructor
    · intro h
      obtain ⟨b, hb, h⟩ := bind_eq_ok.1 h
      obtain ⟨rest, hr, h⟩ := bind_eq_ok.1 h
      cases h
      exact .cons hb (ih.1 hr)
    · rintro (_ | ⟨hb, hr⟩)
      rw [hb, ih.2 hr]
      rfl

theorem exists_of_forall₂ {p : α → β → Prop} {items : List α} {bs : List β}
    (h : List.Forall₂ p items bs) {a : α} (ha : a ∈ items) : ∃ b, p a b := by
  induction h with
  | nil => cases ha
  | cons hp _ ih =>
    rcases List.mem_cons.1 ha with rfl | ha
    · exact ⟨_, hp⟩
    · exact ih ha

/-- A step for every item ends well if each single one does. -/
theorem exists_mapM_eq_ok {f : α → Except ε β} {items : List α} (h : ∀ a ∈ items, ∃ b, f a = .ok b) :
    ∃ bs, items.mapM f = .ok bs := by
  induction items with
  | nil => exact ⟨[], rfl⟩
  | cons a items ih =>
    obtain ⟨b, hb⟩ := h a List.mem_cons_self
    obtain ⟨bs, hbs⟩ := ih fun c hc => h c (List.mem_cons_of_mem a hc)
    exact ⟨b :: bs, mapM_eq_ok.2 (.cons hb (mapM_eq_ok.1 hbs))⟩

theorem mapM_of_forall {f : α → Except ε β} {g : α → β} {items : List α}
    (h : ∀ a ∈ items, f a = .ok (g a)) : items.mapM f = .ok (items.map g) := by
  rw [mapM_eq_ok, List.forall₂_map_right_iff, List.forall₂_same]
  exact h

/-- What the steps give is a function of the items. -/
theorem exists_map_of_mapM [Inhabited β] {f : α → Except ε β} {items : List α} {bs : List β}
    (h : items.mapM f = .ok bs) : ∃ g : α → β, bs = items.map g ∧ ∀ a ∈ items, f a = .ok (g a) := by
  have hsome : ∀ a ∈ items, f a = .ok ((f a).toOption.getD default) := by
    intro a ha
    obtain ⟨b, hb⟩ := exists_of_forall₂ (mapM_eq_ok.1 h) ha
    rw [hb]
    rfl
  exact ⟨_, Except.ok.inj (h.symm.trans (mapM_of_forall hsome)), hsome⟩

/-- What every step keeps, a run keeps. -/
theorem foldlM_induction {f : β → α → Except ε β} {p : β → Prop}
    (hstep : ∀ b a c, p b → f b a = .ok c → p c) {items : List α} {b c : β} (hb : p b)
    (h : items.foldlM f b = .ok c) : p c := by
  induction items generalizing b with
  | nil =>
    cases h
    exact hb
  | cons a items ih =>
    rw [List.foldlM_cons] at h
    obtain ⟨next, hnext, h⟩ := bind_eq_ok.1 h
    exact ih (hstep b a next hb hnext) h

/-- A run fails at one of its steps, after those before it went well. -/
theorem foldlM_eq_error {f : β → α → Except ε β} {items : List α} {b : β} {e : ε}
    (h : items.foldlM f b = .error e) :
    ∃ before a rest c, items = before ++ a :: rest ∧ before.foldlM f b = .ok c ∧ f c a = .error e := by
  induction items generalizing b with
  | nil => cases h
  | cons a items ih =>
    rw [List.foldlM_cons] at h
    rcases bind_eq_error.1 h with h | ⟨next, hnext, h⟩
    · exact ⟨[], a, items, b, rfl, rfl, h⟩
    · obtain ⟨before, failing, rest, c, rfl, hbefore, hfails⟩ := ih h
      exact ⟨a :: before, failing, rest, c, rfl, bind_eq_ok.2 ⟨next, hnext, hbefore⟩, hfails⟩

/-- Steps that keep two values related lead to related values. -/
theorem exists_foldlM_related {f g : β → α → Except ε β} {R : β → β → Prop}
    (hstep : ∀ b c a next, R b c → f b a = .ok next → ∃ other, g c a = .ok other ∧ R next other)
    {items : List α} {b c last : β} (hbc : R b c) (h : items.foldlM f b = .ok last) :
    ∃ other, items.foldlM g c = .ok other ∧ R last other := by
  induction items generalizing b c with
  | nil =>
    cases h
    exact ⟨c, rfl, hbc⟩
  | cons a items ih =>
    rw [List.foldlM_cons] at h
    obtain ⟨next, hnext, h⟩ := bind_eq_ok.1 h
    obtain ⟨other, hother, hrelated⟩ := hstep b c a next hbc hnext
    obtain ⟨last', hlast, hend⟩ := ih hrelated h
    exact ⟨last', bind_eq_ok.2 ⟨other, hother, hlast⟩, hend⟩

/-! ## Computations with a state -/

section State

variable {σ : Type} {m : ExceptT ε (StateM σ) α} {f : α → ExceptT ε (StateM σ) β} {s t : σ}

/-- A part that ends well hands over to the next one. -/
theorem run_bind_of_ok {a : α} (h : m.run.run s = (.ok a, t)) : (m >>= f).run.run s = (f a).run.run t := by
  rw [ExceptT.run_bind, StateT.run_bind, h]
  rfl

/-- A part that fails is the last one. -/
theorem run_bind_of_error {e : ε} (h : m.run.run s = (.error e, t)) : (m >>= f).run.run s = (.error e, t) := by
  rw [ExceptT.run_bind, StateT.run_bind, h]
  rfl

end State

end NestedResources.Except
