import NestedResources.Proofs.Schema.Lookup
import NestedResources.Proofs.Service.Reads
import NestedResources.Service.Router

/-!
# Routing

To find out where a path leads changes nothing. A path to an entity is followed from there, segment by
segment, and how it was spelled as a whole shows in errors only.
-/
namespace NestedResources

namespace Serving

variable {α β : Type}

/-- A step that leaves the desk as it is and answers only what satisfies `post`. -/
def Finds (m : Serving α) (post : α → Prop) : Prop :=
  ∀ d, (m.on d).2 = d ∧ ∀ a, (m.on d).1 = .ok a → post a

variable {m : Serving α} {f : α → Serving β} {pre : α → Prop} {post : β → Prop}

theorem Finds.bind (hm : m.Finds pre) (hf : ∀ a, pre a → (f a).Finds post) : (m >>= f).Finds post := by
  intro d
  rw [bind_on]
  obtain ⟨hdesk, hpre⟩ := hm d
  rcases hon : m.on d with ⟨_ | a, after⟩
  · rw [hon] at hdesk
    exact ⟨hdesk, nofun⟩
  · rw [hon] at hdesk hpre
    cases hdesk
    exact hf a (hpre a rfl) after

theorem finds_liftM {x : Except Error α} {pre : α → Prop} (h : ∀ a, x = .ok a → pre a) :
    (liftM x : Serving α).Finds pre := fun d => by simpa using h

theorem finds_throw (e : Error) (pre : α → Prop) : (throw e : Serving α).Finds pre :=
  fun _ => ⟨rfl, nofun⟩

theorem finds_pure {a : α} (h : pre a) : (pure a : Serving α).Finds pre :=
  fun _ => ⟨rfl, fun _ hb => by cases hb; exact h⟩

/-- Requests that end well on the same desks, with the same answers. -/
def Agrees (m other : Serving α) : Prop := ∀ d after a, m.on d = (.ok a, after) ↔ other.on d = (.ok a, after)

theorem Agrees.refl (m : Serving α) : m.Agrees m := fun _ _ _ => .rfl

theorem agrees_throw (e other : Error) : (throw e : Serving α).Agrees (throw other) :=
  fun _ _ _ => ⟨nofun, nofun⟩

theorem on_bind_eq_ok {m : Serving α} {f : α → Serving β} {d after : Desk} {b : β} :
    (m >>= f).on d = (.ok b, after) ↔ ∃ a between, m.on d = (.ok a, between) ∧ (f a).on between = (.ok b, after) := by
  rw [bind_on]
  rcases m.on d with ⟨_ | a, between⟩ <;> simp

/-- A step that finds something, and another one on the same desk. -/
theorem Finds.of_on_bind (hm : m.Finds pre) {d after : Desk} {b : β} (h : (m >>= f).on d = (.ok b, after)) :
    ∃ a, pre a ∧ (f a).on d = (.ok b, after) := by
  obtain ⟨a, between, hfirst, hrest⟩ := on_bind_eq_ok.1 h
  obtain ⟨hdesk, hpre⟩ := hm d
  rw [hfirst] at hdesk hpre
  exact ⟨a, hpre a rfl, hdesk ▸ hrest⟩

theorem Agrees.bind {m other : Serving α} {f g : α → Serving β} (h : m.Agrees other)
    (hf : ∀ a, (f a).Agrees (g a)) : (m >>= f).Agrees (other >>= g) := fun d after b => by
  rw [on_bind_eq_ok, on_bind_eq_ok]
  exact exists_congr fun a => exists_congr fun between => and_congr (h d between a) (hf a between after b)

end Serving

namespace Service

open Serving

variable (svc : Service) (ctx : Context)

/-- A route through a relationship of its resource. -/
def Relates : Route → Prop
  | .toMany r _ name | .toOne r _ name _ => ∃ rel target, svc.related r name = .ok (rel, target)
  | _ => True

theorem finds_rows (r : Resource) (q : Query) (scope : Option Predicate) :
    (svc.rows ctx r q scope).Finds fun _ => True :=
  fun d => by simp [rows_on]

theorem finds_ensureVisible (r : Resource) (i : Identity) : (svc.ensureVisible ctx r i).Finds fun _ => True := by
  refine (svc.finds_rows ctx r _ _).bind fun rows _ => ?_
  split
  · exact finds_throw _ _
  · exact finds_pure trivial

theorem finds_related (r : Resource) (name : String) :
    (liftM (svc.related r name) : Serving (Relationship × Resource)).Finds fun found =>
      svc.related r name = .ok found :=
  finds_liftM fun _ h => h

theorem finds_hasMember (r : Resource) (i : Identity) (relationship : String) (child : Identity) :
    (svc.hasMember ctx r i relationship child).Finds fun _ => True :=
  (svc.finds_related r relationship).bind fun _ _ => (svc.finds_rows ctx _ _ _).bind fun _ _ =>
    finds_pure trivial

theorem finds_relatedIdentity (r : Resource) (i : Identity) (relationship : String) :
    (svc.relatedIdentity ctx r i relationship).Finds fun _ => True :=
  (svc.finds_related r relationship).bind fun _ _ => (svc.finds_rows ctx _ _ _).bind fun _ _ =>
    finds_pure trivial

/-- What segments lead to. Entities on the way are spelled by segments, `spelt` says how, or they are the
one relative of an entity, and then more segments follow. -/
theorem finds_follow_of (segment : String → Prop) (spelt : Resource → Identity → Prop) {post : Route → Prop}
    (htake : ∀ path r segments i, (∀ s ∈ segments, segment s) → takeIdentity path r segments = .ok i →
      spelt r i)
    (hentity : ∀ r i, spelt r i → post (.entity r i)) (hfield : ∀ r i s, post (.field r i s))
    (hmany : ∀ r i s found, svc.related r s = .ok found → post (.toMany r i s))
    (hone : ∀ r i s member found, svc.related r s = .ok found → post (.toOne r i s member))
    (path : String) (r : Resource) (i : Identity) (segments : List String)
    (hsegments : ∀ s ∈ segments, segment s) (hfrom : segments ≠ [] ∨ spelt r i) :
    (svc.follow ctx path r i segments).Finds post := by
  cases segments with
  | nil =>
    rw [follow]
    exact finds_pure (hentity r i (hfrom.resolve_left fun hne => hne rfl))
  | cons name rest =>
    have hrest : ∀ s ∈ rest, segment s := fun s hs => hsegments s (List.mem_cons_of_mem name hs)
    rw [follow]
    dsimp only
    split
    · split
      · exact finds_pure (hfield r i name)
      · exact finds_throw _ _
    · split
      · exact finds_throw _ _
      · refine (svc.finds_ensureVisible ctx r i).bind fun _ _ => ?_
        refine (svc.finds_related r name).bind fun related hrelated => ?_
        obtain ⟨rel, target⟩ := related
        dsimp only
        split
        · split
          · exact finds_pure (hmany r i name _ hrelated)
          · refine (finds_liftM fun child h => htake path target rest child hrest h).bind fun child hchild => ?_
            refine (svc.finds_hasMember ctx r i name child).bind fun found _ => ?_
            split
            · exact finds_follow_of segment spelt htake hentity hfield hmany hone path target child _
                (fun s hs => hrest s (List.mem_of_mem_drop hs)) (.inr hchild)
            · exact finds_throw _ _
        · refine (svc.finds_relatedIdentity ctx r i name).bind fun member _ => ?_
          split
          · exact finds_pure (hone r i name _ _ hrelated)
          · rename_i hmore
            split
            · exact finds_throw _ _
            · refine finds_follow_of segment spelt htake hentity hfield hmany hone path target _ rest hrest
                (.inl fun hnil => ?_)
              exact hmore (List.isEmpty_iff.2 hnil)
termination_by segments.length
decreasing_by
  all_goals
    subst_vars
    simp only [List.length_cons, List.length_drop]
    omega

theorem finds_follow (path : String) (r : Resource) (i : Identity) (segments : List String) :
    (svc.follow ctx path r i segments).Finds svc.Relates :=
  svc.finds_follow_of ctx (fun _ => True) (fun _ _ => True) (fun _ _ _ _ _ _ => trivial)
    (fun _ _ _ => trivial) (fun _ _ _ => trivial) (fun _ _ _ found h => ⟨found.1, found.2, h⟩)
    (fun _ _ _ _ found h => ⟨found.1, found.2, h⟩) path r i segments (fun _ _ => trivial) (.inr trivial)

theorem finds_route (path : String) : (svc.route ctx path).Finds svc.Relates := by
  unfold route
  split
  · exact finds_throw _ _
  · refine (finds_liftM fun _ _ => trivial).bind fun r _ => ?_
    split
    · exact finds_pure trivial
    · exact (finds_liftM fun _ _ => trivial).bind fun i _ => svc.finds_follow ctx path r i _

/-! ## Entities on paths -/

variable {svc ctx} {path : String} {r target : Resource} {i : Identity} {rel : Relationship} {name : String}
  {rest : List String}

/-- Too few segments spell no identity. -/
theorem takeIdentity_eq (path : String) (r : Resource) (segments : List String) :
    takeIdentity path r segments =
      match r.parseIdentity? (segments.take r.identity.length) with
      | some i => .ok i
      | none => .error (.notFound r.name path) := by
  unfold takeIdentity
  split
  · rename_i hshort
    have hlength : (segments.take r.identity.length).length ≠ r.identity.length := by
      rw [List.length_take]
      omega
    rw [Resource.parseIdentity?, if_neg hlength]
  · rfl

/-- A segment that names a relationship is followed through it. -/
theorem follow_related (hr : svc.schema.resource? r.name = some r)
    (hrelated : svc.related r name = .ok (rel, target)) :
    svc.follow ctx path r i (name :: rest) = (do
      svc.ensureVisible ctx r i
      if rel.isMany then
        if rest.isEmpty then return .toMany r i name
        let child ← takeIdentity path target rest
        if ← svc.hasMember ctx r i name child then
          svc.follow ctx path target child (rest.drop target.identity.length)
        else throw (.notFound target.name child.key)
      else
        let member ← svc.relatedIdentity ctx r i name
        if rest.isEmpty then return .toOne r i name (member.map (target, ·))
        match member with
        | none => throw (.notFound target.name path)
        | some m => svc.follow ctx path target m rest) := by
  obtain ⟨hrel, htarget⟩ := related_eq_ok hrelated
  have hfield : (r.field? name).isSome = false := by
    cases hf : r.field? name with
    | none => rfl
    | some f =>
      rw [Schema.relationship?_of_field? hr hf] at hrel
      cases hrel
  rw [follow]
  simp only [hfield, hrel, hrelated, Bool.false_eq_true, if_false]
  rfl

/-- A path to an entity is followed from there. -/
theorem route_on_entity {path : String} {r : Resource} {i : Identity} {named rest : List String}
    (hr : svc.schema.resource? r.name = some r) (hpath : segmentsOf path = r.name :: (named ++ rest))
    (hnamed : r.parseIdentity? named = some i) (d : Desk) :
    (svc.route ctx path).on d = (svc.follow ctx path r i rest).on d := by
  have hlength : named.length = r.identity.length := by
    by_contra hne
    rw [Resource.parseIdentity?, if_neg hne] at hnamed
    cases hnamed
  have hidentity := (Schema.faultless_of_resource? hr).1
  have hne : (named ++ rest).isEmpty = false := List.isEmpty_eq_false_iff.2 fun hnil => hidentity <| by
    rw [(List.append_eq_nil_iff.1 hnil).1] at hlength
    exact List.length_eq_zero_iff.1 hlength.symm
  unfold route
  rw [hpath]
  dsimp only
  rw [Serving.bind_on, Serving.liftM_on, Schema.require_eq_ok.2 hr]
  simp only [hne, Bool.false_eq_true, if_false]
  rw [Serving.bind_on, Serving.liftM_on, takeIdentity_eq, ← hlength, List.take_left, hnamed]
  dsimp only
  rw [List.drop_left]

theorem agrees_takeIdentity (path other : String) (r : Resource) (segments : List String) :
    (liftM (takeIdentity path r segments) : Serving Identity).Agrees (liftM (takeIdentity other r segments)) := by
  rw [takeIdentity_eq, takeIdentity_eq]
  split
  · exact .refl _
  · exact agrees_throw _ _

/-- A path is told apart in errors only. -/
theorem agrees_follow (path other : String) (r : Resource) (i : Identity) (segments : List String) :
    (svc.follow ctx path r i segments).Agrees (svc.follow ctx other r i segments) := by
  cases segments with
  | nil =>
    rw [follow, follow]
    exact .refl _
  | cons segment rest =>
    rw [follow, follow]
    split
    · split
      · exact .refl _
      · exact agrees_throw _ _
    · split
      · exact agrees_throw _ _
      · refine .bind (.refl _) fun _ => .bind (.refl _) fun related => ?_
        obtain ⟨rel, target⟩ := related
        dsimp only
        split
        · split
          · exact .refl _
          · refine .bind (agrees_takeIdentity path other target rest) fun child => .bind (.refl _) fun found => ?_
            split
            · exact agrees_follow path other target child _
            · exact .refl _
        · refine .bind (.refl _) fun member => ?_
          split
          · exact .refl _
          · split
            · exact agrees_throw _ _
            · exact agrees_follow path other target _ rest
termination_by segments.length
decreasing_by
  all_goals simp only [List.length_cons, List.length_drop]
  all_goals omega

end Service

end NestedResources
