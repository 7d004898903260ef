import NestedResources.Proofs.Schema.Lookup
import NestedResources.Write.Mutation

/-!
# Updates look their entity up

A walk that updates an entity looks it up before anything else, as far as the gate lets it see. If the
walk ends well, what the gate requires has been compiled.
-/
namespace NestedResources

@[simp] theorem firstOf?_cons_self {κ α : Type} [DecidableEq κ] (key : κ) (a : α)
    (pairs : List (κ × α)) : firstOf? key ((key, a) :: pairs) = some a := by
  simp [firstOf?]

theorem firstOf?_cons_of_ne {κ α : Type} [DecidableEq κ] {key other : κ} (h : other ≠ key) (a : α)
    (pairs : List (κ × α)) : firstOf? key ((other, a) :: pairs) = firstOf? key pairs := by
  simp [firstOf?, h]

theorem mem_of_firstOf? {κ α : Type} [DecidableEq κ] {key : κ} {pairs : List (κ × α)} {a : α}
    (h : firstOf? key pairs = some a) : (key, a) ∈ pairs := by
  obtain ⟨e, he, rfl⟩ := Option.map_eq_some_iff.1 h
  have hkey : e.1 = key := by simpa using List.find?_some he
  exact hkey ▸ List.mem_of_find?_eq_some he

namespace Walking

variable {α β : Type}

theorem bind_eq_ok {m : Walking α} {f : α → Walking β} {w after : Walk} {b : β}
    (h : (m >>= f).run.run w = (.ok b, after)) :
    ∃ a between, m.run.run w = (.ok a, between) ∧ (f a).run.run between = (.ok b, after) := by
  rw [ExceptT.run_bind, StateT.run_bind] at h
  generalize m.run.run w = result at h
  obtain ⟨_ | a, between⟩ := result
  · cases h
  · exact ⟨a, between, rfl, h⟩

/-- A part that ends well hands over to the next one. -/
theorem bind_of_ok {m : Walking α} {f : α → Walking β} {w between : Walk} {a : α}
    (h : m.run.run w = (.ok a, between)) : (m >>= f).run.run w = (f a).run.run between :=
  Except.run_bind_of_ok h

/-- A part that fails ends the walk. -/
theorem bind_of_error {m : Walking α} {f : α → Walking β} {w after : Walk} {e : Error}
    (h : m.run.run w = (.error e, after)) : (m >>= f).run.run w = (.error e, after) :=
  Except.run_bind_of_error h

/-- What every round of a loop keeps holds at its end. -/
theorem forM_induction {f : α → Walking Unit} {P : Walk → Prop} {items : List α} {w after : Walk} {u : Unit}
    (hstep : ∀ a ∈ items, ∀ w after u, P w → (f a).run.run w = (.ok u, after) → P after) (hw : P w)
    (h : (items.forM f).run.run w = (.ok u, after)) : P after := by
  induction items generalizing w with
  | nil =>
    cases h
    exact hw
  | cons a items ih =>
    obtain ⟨u, between, hfirst, hrest⟩ := bind_eq_ok h
    exact ih (fun b hb => hstep b (List.mem_cons_of_mem a hb)) (hstep a List.mem_cons_self w between u hw hfirst)
      hrest

@[simp] theorem get_run (w : Walk) : (get : Walking Walk).run.run w = (.ok w, w) := rfl

@[simp] theorem liftM_run (x : Except Error α) (w : Walk) :
    (liftM x : Walking α).run.run w = (x, w) := by
  cases x <;> rfl

theorem liftM_ok {x : Except Error α} {a : α} (h : x = .ok a) (w : Walk) :
    (liftM x : Walking α).run.run w = (.ok a, w) := by
  rw [liftM_run, h]

theorem liftM_eq_ok {x : Except Error α} {w after : Walk} {a : α}
    (h : (liftM x : Walking α).run.run w = (.ok a, after)) : x = .ok a ∧ w = after := by
  cases x with
  | error e => cases h
  | ok b =>
    cases h
    exact ⟨rfl, rfl⟩

end Walking

namespace WalkSite

variable {site : WalkSite} {r : Resource} {i : Identity} {w after : Walk}

/-- Looking up an entity that the walk has not met compiles what its gate requires. -/
theorem required_of_lookup {found : Option Known} (hknown : w.known = [])
    (h : (site.lookup r i).run.run w = (.ok found, after)) :
    ∃ p, site.registry.required site.ctx r = .ok p := by
  obtain ⟨seen, between, hget, h⟩ := Walking.bind_eq_ok h
  cases hget
  rw [hknown] at h
  obtain ⟨p, _, hp, -⟩ := Walking.bind_eq_ok h
  exact ⟨p, (Walking.liftM_eq_ok hp).1⟩

/-- At the top of an update the identity is prescribed. -/
theorem identityOf_update {path : String} {members : List (String × Json)} {found : Option Identity}
    (h : (identityOf r path (.root (.update i)) members).run.run w = (.ok found, after)) :
    found = some i ∧ after.known = w.known := by
  unfold identityOf at h
  simp only [Position.identity?] at h
  split at h
  · cases h
    exact ⟨rfl, rfl⟩
  · cases h
    exact ⟨rfl, rfl⟩

theorem required_of_openObject {path : String} {members : List (String × Json)} {opened : Opened}
    (hknown : w.known = [])
    (h : (site.openObject r path (.root (.update i)) members).run.run w = (.ok opened, after)) :
    ∃ p, site.registry.required site.ctx r = .ok p := by
  obtain ⟨op, _, hop, h⟩ := Walking.bind_eq_ok h
  obtain ⟨-, rfl⟩ := Walking.liftM_eq_ok hop
  obtain ⟨identity, between, hidentity, h⟩ := Walking.bind_eq_ok h
  obtain ⟨rfl, hbetween⟩ := identityOf_update hidentity
  obtain ⟨known, _, hlookup, -⟩ := Walking.bind_eq_ok h
  exact required_of_lookup (hbetween.trans hknown) hlookup

/-- A walk that updates an entity by an object compiles what the gate requires. -/
theorem required_of_update {resource : String} {members : List (String × Json)} {mode : WriteMode}
    {roots : List EntityRef}
    (h : (site.update resource i (.obj members) mode).run.run {} = (.ok roots, after)) :
    ∃ r p, site.registry.schema.resource? resource = some r ∧
      site.registry.required site.ctx r = .ok p := by
  obtain ⟨r, _, hrequire, h⟩ := Walking.bind_eq_ok h
  obtain ⟨hr, rfl⟩ := Walking.liftM_eq_ok hrequire
  obtain ⟨visited, _, hvisit, -⟩ := Walking.bind_eq_ok h
  rw [visitRoot, visit] at hvisit
  obtain ⟨opened, _, hopen, -⟩ := Walking.bind_eq_ok hvisit
  obtain ⟨p, hp⟩ := required_of_openObject rfl hopen
  exact ⟨r, p, Schema.require_eq_ok.1 hr, hp⟩

theorem required_of_updateField {resource field : String} {value : Json} {roots : List EntityRef}
    (h : (site.updateField resource i field value).run.run {} = (.ok roots, after)) :
    ∃ r p, site.registry.schema.resource? resource = some r ∧
      site.registry.required site.ctx r = .ok p := by
  obtain ⟨r, _, hr, h⟩ := Walking.bind_eq_ok h
  obtain ⟨-, rfl⟩ := Walking.liftM_eq_ok hr
  dsimp only at h
  split at h
  · cases h
  · exact required_of_update h

end WalkSite

end NestedResources
