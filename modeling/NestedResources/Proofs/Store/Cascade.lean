import Mathlib.Data.List.Count
import Mathlib.Logic.Function.Iterate
import NestedResources.Proofs.Read.Reading
import NestedResources.Proofs.Store.Release

/-!
# Deleting takes the closure

A deletion reaches exactly the entities that go with the one it starts from, and leaves nothing that
refers to them. Each entity is reached once, so the recursion is never deeper than there are rows.
-/
namespace NestedResources

/-! ## The number of rows -/

namespace Tables

/-- The rows of all resources, by resource and key. -/
def entities (t : Tables) : List (String × String) :=
  t.rows.entries.flatMap fun e => e.2.entries.map fun row => (e.1, row.1)

theorem length_entities (t : Tables) : t.entities.length = t.size := by
  suffices h : ∀ (entries : List (String × Dict Record)) (n : Nat),
      (entries.map (·.2)).foldl (fun n rows => n + rows.size) n =
        n + (entries.flatMap fun e => e.2.entries.map fun row => (e.1, row.1)).length by
    rw [size, Dict.values, h, Nat.zero_add, entities]
  intro entries
  induction entries with
  | nil => exact fun n => rfl
  | cons e entries ih =>
    intro n
    rw [List.map_cons, List.foldl_cons, ih, List.flatMap_cons, List.length_append, List.length_map,
      Dict.size, Nat.add_assoc]

theorem mem_entities {t : Tables} {name key : String} {record : Record}
    (h : t.rowAt? name key = some record) : (name, key) ∈ t.entities := by
  unfold rowAt? table at h
  cases hrows : t.rows.get? name with
  | none =>
    rw [hrows] at h
    cases h
  | some rows =>
    rw [hrows, Option.getD_some] at h
    exact List.mem_flatMap.2 ⟨(name, rows), Dict.get?_eq_some_iff.1 hrows,
      List.mem_map.2 ⟨(key, record), Dict.get?_eq_some_iff.1 h, rfl⟩⟩

/-- All that goes with a row of the tables is a row of the tables. -/
theorem Cascades.exists_row {t : Tables} {s : Schema} (ht : t.Filed s) {name key n k : String}
    (h : t.Cascades s name key n k) {record : Record} (hrow : t.rowAt? name key = some record) :
    ∃ old, t.rowAt? n k = some old := by
  induction h with
  | target => exact ⟨record, hrow⟩
  | @member r target rel owner member record _ hdeclares _ hjoin htarget hrow hmember _ =>
    obtain ⟨i, hi, -⟩ := ht _ _ r record hdeclares.1 hrow
    cases hj : rel.join with
    | foreignKey own referenced =>
      rw [hj] at hjoin
      cases hjoin
    | reverse own held =>
      obtain ⟨old, hold, -⟩ := (mem_memberKeys_of_reverse ht htarget hj).1 hmember
      exact ⟨old, hold⟩
    | association table own other => exact ((mem_memberKeys_of_association ht htarget hj hi).1 hmember).1

end Tables

namespace Progress.Deletion

variable {s : Schema} {t : Tables} {name key : String}
  {busy : List (String × String × Relationship)}

/-- Rows are named by a resource and a key, and names are compared as text. -/
local instance lawfulBEq_entity : LawfulBEq (String × String) := inferInstance

/-- The number of rows that a deletion has not reached. -/
def unreached (t : Tables) (d : Deletion) : Nat := t.entities.countP (· ∉ d.reached)

theorem unreached_le {d after : Deletion} (h : ∀ e ∈ d.reached, e ∈ after.reached) :
    unreached t after ≤ unreached t d :=
  List.countP_mono_left fun e _ he => by
    simp only [decide_eq_true_eq] at he ⊢
    exact fun hmem => he (h e hmem)

/-- Reaching a row leaves fewer to reach. -/
theorem unreached_reach {d : Deletion} {e : String × String} (he : e ∈ t.entities)
    (hnew : e ∉ d.reached) :
    unreached t { d with reached := e :: d.reached } < unreached t d := by
  have hsplit : unreached t { d with reached := e :: d.reached } =
      (t.entities.filter (· ∉ d.reached)).countP (· ≠ e) := by
    rw [List.countP_filter]
    refine List.countP_congr fun x _ => ?_
    simp
  rw [hsplit, unreached, List.countP_eq_length_filter (p := fun x => decide (x ∉ d.reached)),
    List.countP_lt_length_iff]
  exact ⟨e, List.mem_filter.2 ⟨he, by simpa using hnew⟩, by simp⟩

/-! ## One entity -/

/-- Deleting one entity, where `remove` deletes those that go with it. -/
def removeWith (s : Schema) (remove : Resource → Identity → Deletion → Deletion) (r : Resource)
    (i : Identity) (d : Deletion) : Deletion :=
  if (r.name, i.key) ∈ d.reached then d
  else
    let d := { d with reached := (r.name, i.key) :: d.reached }
    match d.progress.tables.row? r.name i with
    | none => d
    | some record =>
      let d := r.relationships.foldl (releaseMembers s remove r record i.key) d
      let d := (s.incoming r.name).foldl (releaseReferrers r record i.key) d
      d.dropRow r.name i.key

theorem remove_succ (s : Schema) (fuel : Nat) :
    remove s (fuel + 1) = removeWith s (remove s fuel) := rfl

theorem remove_eq_iterate (s : Schema) (fuel : Nat) :
    remove s fuel = (removeWith s)^[fuel] fun _ _ d => d := by
  induction fuel with
  | zero => rfl
  | succ fuel ih => rw [remove_succ, ih, Function.iterate_succ_apply']

/-- A row that is dropped once its relationships are through with, and all that refers to it has been
told, is done with. -/
theorem done_dropRow {start d : Deletion} {r : Resource} {owner : String} {record current : Record}
    (e : Deleting t s name key start r owner record current)
    (hreleased : ∀ rel ∈ r.relationships, Released t s r owner record rel d)
    (hunreferred : ∀ x ∈ s.incoming r.name, Unreferred r owner record x d) :
    Done t s (d.dropRow r.name owner) (r.name, owner) := by
  refine ⟨by simp [rowAt?_dropRow], fun r' target rel record' hname htakes hrow member hmember => ?_,
    fun table link hlink => ?_, fun k owner' hk howner hrow key row hnew hpoints => ?_⟩
  · obtain rfl := Schema.eq_of_name htakes.declares.1 e.resource hname
    cases hrow.symm.trans e.row
    exact (hreleased rel htakes.declares.2).members target htakes member hmember
  · rw [linksOf_dropRow] at hlink
    rintro ⟨r', rel, own, other, hdeclares, hjoin, ⟨hname, hown⟩ | ⟨htarget, hother⟩⟩
    · obtain rfl := Schema.eq_of_name hdeclares.1 e.resource hname
      exact (hreleased rel hdeclares.2).unlinked table own other hjoin link hlink hown
    · exact (hunreferred (r', rel) (Schema.mem_incoming.2 ⟨hdeclares, htarget⟩)).links table own other
        hjoin link hlink hother
  · cases hrow.symm.trans e.row
    have hold : d.progress.tables.rowAt? k.holder key = some row := by
      rw [rowAt?_dropRow] at hnew
      split at hnew
      · cases hnew
      · exact hnew
    obtain ⟨r', rel, hdeclares, hkey⟩ := hk
    unfold Relationship.foreignKey? at hkey
    split at hkey
    · rename_i own referenced hjoin
      cases hkey
      have htarget : rel.target = r.name := howner
      rw [htarget] at hpoints
      exact (hunreferred (r', rel) (Schema.mem_incoming.2 ⟨hdeclares, htarget⟩)).rows own referenced
        hjoin key row hold hpoints
    · rename_i own held hjoin
      cases hkey
      obtain rfl := Schema.eq_of_name hdeclares.1 e.resource howner
      exact (hreleased rel hdeclares.2).unreferred own held hjoin key row hold hpoints
    · cases hkey

section Closure

variable (hs : s.Referential) (ht : t.Filed s)
include hs ht

/-- Deleting an entity whose row is there is done with it, if what goes with it is deleted so too. -/
theorem removeWith_settled {remove : Resource → Identity → Deletion → Deletion}
    (hexists : ∃ record, t.rowAt? name key = some record) {d : Deletion} {r : Resource} {i : Identity}
    (h : Sound t s name key busy d) (hr : s.resource? r.name = some r)
    (hcascades : t.Cascades s name key r.name i.key)
    (hremove : (r.name, i.key) ∉ d.reached →
      Removes t s name key { d with reached := (r.name, i.key) :: d.reached } remove) :
    Settled t s name key busy d (removeWith s remove r i d) ∧
      (r.name, i.key) ∈ (removeWith s remove r i d).reached := by
  unfold removeWith
  split
  · rename_i hreached
    exact ⟨.refl h, hreached⟩
  rename_i hnew
  have hreach := h.reach (e := (r.name, i.key)) hcascades
  obtain ⟨first, hfirst⟩ := hexists
  obtain ⟨old, hold⟩ := hcascades.exists_row ht hfirst
  cases hrow : d.progress.tables.row? r.name i with
  | none => exact absurd (h.missing _ _ old hold hrow) hnew
  | some current =>
    simp only [hrow]
    obtain ⟨old', hold', hcleared⟩ := h.rows _ _ current hrow
    cases hold.symm.trans hold'
    set start : Deletion := { d with reached := (r.name, i.key) :: d.reached } with hstart
    have e : Deleting t s name key start r i.key old current :=
      ⟨hr, hold, hcascades, List.mem_cons_self, hcleared.get?_identity hs hr⟩
    have hfresh : ∀ rel, (r.name, i.key, rel) ∉ busy := fun rel hmem => hnew (h.busy_reached _ hmem)
    have hlater : Later d start :=
      ⟨fun e he => List.mem_cons_of_mem _ he, fun _ _ new h => ⟨new, h, .refl new⟩, fun _ _ h => h⟩
    obtain ⟨hmembers, hreleased⟩ := foldl_settled (f := releaseMembers s remove r current i.key)
      (P := fun rel d => Released t s r i.key old rel d)
      (fun rel d after hlater hrel => hrel.later hlater)
      (fun rel hrel d hd h => releaseMembers_settled hs ht e (hremove hnew) hrel (hfresh rel) hd h)
      (.refl start) hreach
    obtain ⟨hreferrers, hunreferred⟩ := foldl_settled (f := releaseReferrers r current i.key)
      (P := fun x d => Unreferred r i.key old x d)
      (fun x d after hlater hx => hx.later hlater)
      (fun x hx d hd h => releaseReferrers_settled hs ht (e.later hmembers.later) hreleased hx hd h)
      (.refl _) hmembers.sound
    have hreached := hreferrers.later.reached _ (hmembers.later.reached _ e.reached)
    have hthrough := hmembers.trans hreferrers
    have hdropped := later_dropRow
      ((s.incoming r.name).foldl (releaseReferrers r current i.key)
        (r.relationships.foldl (releaseMembers s remove r current i.key) start)) r.name i.key
    refine ⟨⟨hlater.trans (hthrough.later.trans hdropped), hthrough.sound.dropRow hs ht hreached,
      fun x hx => ?_⟩, hreached⟩
    rcases hthrough.done x hx with hstarted | hdone
    · rcases List.mem_cons.1 hstarted with rfl | hbefore
      · exact .inr (done_dropRow e (fun rel hrel => (hreleased rel hrel).later hreferrers.later)
          hunreferred)
      · exact .inl hbefore
    · exact .inr (hdone.later hdropped)

/-- With fuel for the rows that are not reached, all that goes with an entity is deleted. -/
theorem remove_settled (hexists : ∃ record, t.rowAt? name key = some record) {fuel : Nat}
    {d : Deletion} {r : Resource} {i : Identity} (h : Sound t s name key busy d)
    (hr : s.resource? r.name = some r) (hcascades : t.Cascades s name key r.name i.key)
    (hfuel : unreached t d < fuel) :
    Settled t s name key busy d (remove s fuel r i d) ∧
      (r.name, i.key) ∈ (remove s fuel r i d).reached := by
  induction fuel generalizing busy d r i with
  | zero => cases hfuel
  | succ fuel ih =>
    rw [remove_succ]
    refine removeWith_settled hs ht hexists h hr hcascades fun hnew => ?_
    intro busy' d' target m hlater h' htarget hmember
    obtain ⟨first, hfirst⟩ := hexists
    obtain ⟨old, hold⟩ := hcascades.exists_row ht hfirst
    have hfewer := unreached_reach (Tables.mem_entities hold) hnew
    have hmore := unreached_le (t := t) hlater.reached
    exact ih h' htarget hmember (by omega)

end Closure

/-! ## Depth of the recursion -/

theorem foldl_agree {α : Type} {f g : Deletion → α → Deletion} {start : Deletion}
    (h : ∀ a d, Later start d → f d a = g d a ∧ Later d (f d a)) (items : List α) {d : Deletion}
    (hd : Later start d) : items.foldl f d = items.foldl g d ∧ Later d (items.foldl f d) := by
  induction items generalizing d with
  | nil => exact ⟨rfl, .refl d⟩
  | cons a items ih =>
    obtain ⟨heq, hlater⟩ := h a d hd
    obtain ⟨hrest, hrestLater⟩ := ih (hd.trans hlater)
    rw [List.foldl_cons, List.foldl_cons, ← heq]
    exact ⟨hrest, hlater.trans hrestLater⟩

theorem releaseReferrers_later (r : Resource) (record : Record) (key : String) (d : Deletion)
    (x : Resource × Relationship) : Later d (releaseReferrers r record key d x) := by
  obtain ⟨source, rel⟩ := x
  cases hjoin : rel.join with
  | foreignKey own referenced =>
    cases hvalues : record.values? referenced with
    | none =>
      simp only [releaseReferrers, hjoin, hvalues]
      exact .refl d
    | some wanted =>
      simp only [releaseReferrers, hjoin, hvalues]
      exact (foldl_agree (g := fun d (i : Identity) => d.step (·.clear source.name i own))
        (fun i d _ => ⟨rfl, later_clear d _ i _⟩) _ (.refl d)).2
  | association table own other =>
    simp only [releaseReferrers, hjoin]
    exact later_dropLinks d _ _ key
  | reverse own held =>
    simp only [releaseReferrers, hjoin]
    exact .refl d

/-- Ways to delete members that do the same from a state on let go of members alike. -/
theorem releaseMembers_agree {f g : Resource → Identity → Deletion → Deletion} {start : Deletion}
    (h : ∀ r i d, Later start d → f r i d = g r i d ∧ Later d (f r i d)) (r : Resource)
    (record : Record) (key : String) (rel : Relationship) {d : Deletion} (hd : Later start d) :
    releaseMembers s f r record key d rel = releaseMembers s g r record key d rel ∧
      Later d (releaseMembers s f r record key d rel) := by
  unfold releaseMembers
  split
  · exact ⟨rfl, .refl d⟩
  · rename_i target _
    split
    · exact ⟨rfl, .refl d⟩
    · refine foldl_agree (fun i d hd => ?_) _ hd
      cases rel.cascade with
      | delete => exact h target i d hd
      | detach => exact ⟨rfl, later_clear d _ i _⟩
    · rename_i table own _ _
      have hdropped := later_dropLinks d table own key
      have hmembers := fun members =>
        foldl_agree (fun i d hd => h target i d hd) members (hd.trans hdropped)
      exact ⟨(hmembers _).1, hdropped.trans (hmembers _).2⟩

/-- Ways to delete what goes with an entity that do the same as long as rows are left to reach delete
the entity alike. -/
theorem removeWith_agree {f g : Resource → Identity → Deletion → Deletion} {n : Nat} {d : Deletion}
    (hrows : ∀ name key row, d.progress.tables.rowAt? name key = some row → (name, key) ∈ t.entities)
    (h : ∀ r i after, Later d after → unreached t after < n →
      f r i after = g r i after ∧ Later after (f r i after))
    (r : Resource) (i : Identity) (hn : unreached t d < n + 1) :
    removeWith s f r i d = removeWith s g r i d ∧ Later d (removeWith s f r i d) := by
  unfold removeWith
  split
  · exact ⟨rfl, .refl d⟩
  rename_i hnew
  have hstart : Later d { d with reached := (r.name, i.key) :: d.reached } :=
    ⟨fun e he => List.mem_cons_of_mem _ he, fun _ _ new h => ⟨new, h, .refl new⟩, fun _ _ h => h⟩
  dsimp only
  split
  · exact ⟨rfl, hstart⟩
  rename_i record hrow
  have hfewer := unreached_reach (hrows _ _ record hrow) hnew
  obtain ⟨heq, hmembers⟩ := foldl_agree (f := releaseMembers s f r record i.key)
    (g := releaseMembers s g r record i.key)
    (fun rel d hd => releaseMembers_agree (fun r' i' after hafter =>
      h r' i' after (hstart.trans hafter) (Nat.lt_of_le_of_lt (unreached_le hafter.reached) (by omega)))
        r record i.key rel hd)
    r.relationships (.refl _)
  have hreferrers := fun d => (foldl_agree (f := releaseReferrers r record i.key)
    (g := releaseReferrers r record i.key)
    (fun x d _ => ⟨rfl, releaseReferrers_later r record i.key d x⟩) (s.incoming r.name) (.refl d)).2
  rw [← heq]
  exact ⟨rfl, hstart.trans (hmembers.trans ((hreferrers _).trans (later_dropRow _ r.name i.key)))⟩

/-- Unrolled more often than there are rows to reach, the recursion never comes to what stands at its
end. -/
theorem iterate_agree (p : Progress) (last last' : Resource → Identity → Deletion → Deletion)
    {n : Nat} (r : Resource) (i : Identity) {d : Deletion} (hd : Later ⟨p, []⟩ d)
    (hn : unreached p.tables d < n) :
    (removeWith s)^[n] last r i d = (removeWith s)^[n] last' r i d ∧
      Later d ((removeWith s)^[n] last r i d) := by
  induction n generalizing r i d with
  | zero => cases hn
  | succ n ih =>
    rw [Function.iterate_succ_apply', Function.iterate_succ_apply']
    refine removeWith_agree (fun name key row hrow => ?_) (fun r i after hafter hn =>
      ih r i (hd.trans hafter) hn) r i hn
    obtain ⟨old, hold, -⟩ := hd.rows name key row hrow
    exact Tables.mem_entities hold

theorem unreached_start (p : Progress) : unreached p.tables ⟨p, []⟩ = p.tables.size := by
  rw [unreached, ← Tables.length_entities]
  simp

end Progress.Deletion

/-! ## Deleting -/

/-- What is left after the deletion of an entity: the rows that do not go with it, with the foreign
keys cleared that pointed at what went, and the links that name nothing that went. -/
structure Tables.Left (t : Tables) (s : Schema) (name key : String) (after : Tables) : Prop where
  removed : ∀ n k, t.Cascades s name key n k ↔
    (∃ old, t.rowAt? n k = some old) ∧ after.rowAt? n k = none
  kept : ∀ n k new, after.rowAt? n k = some new →
    ∃ old, t.rowAt? n k = some old ∧ s.Cleared t (t.Cascades s name key) n old new
  links : ∀ table link, link ∈ (after.linksOf table).links ↔
    link ∈ (t.linksOf table).links ∧ ∀ n k, t.Cascades s name key n k → ¬s.Names table link n k
  unreferred : ∀ fk gone owner, s.HasKey fk → t.Cascades s name key fk.owner gone →
    t.rowAt? fk.owner gone = some owner → ∀ k row, after.rowAt? fk.holder k = some row →
      ¬fk.Points row owner

namespace Progress

open Deletion

theorem delete_eq_ok {s : Schema} {p q : Progress} {resource : String} {target : EntityRef}
    (h : p.apply s (.delete resource target) = .ok q) : ∃ r i record, s.resource? resource = some r ∧
      p.resolve target = .ok i ∧ p.tables.rowAt? r.name i.key = some record ∧
        q = p.removeEntity s r i := by
  obtain ⟨r, hr, h⟩ := Except.bind_eq_ok.1 h
  obtain ⟨i, hi, h⟩ := Except.bind_eq_ok.1 h
  cases hrow : p.tables.row? r.name i with
  | none =>
    rw [hrow] at h
    cases h
  | some record =>
    rw [hrow] at h
    cases h
    exact ⟨r, i, record, Schema.require_eq_ok.1 hr, hi, hrow, rfl⟩

/-- The deletion of an entity whose row is there reaches all that goes with it, and is done with all
that it reaches. -/
theorem removeEntity_left {s : Schema} (hs : s.Referential) {p : Progress} (hfiled : p.tables.Filed s)
    {r : Resource} {i : Identity} (hr : s.resource? r.name = some r) {record : Record}
    (hrow : p.tables.rowAt? r.name i.key = some record) :
    p.tables.Left s r.name i.key (p.removeEntity s r i).tables := by
  obtain ⟨hsettled, htarget⟩ := remove_settled hs hfiled ⟨record, hrow⟩
    (sound_start p.tables s r.name i.key p rfl) hr .target
    (Nat.lt_succ_of_le (Nat.le_of_eq (unreached_start p)))
  set d := remove s (p.tables.size + 1) r i ⟨p, []⟩ with hd
  have hdone : ∀ e ∈ d.reached, Done p.tables s d e := fun e he =>
    (hsettled.done e he).resolve_left List.not_mem_nil
  have hreached : ∀ n k, p.tables.Cascades s r.name i.key n k ↔ (n, k) ∈ d.reached := by
    refine fun n k => ⟨fun h => ?_, hsettled.sound.justified (n, k)⟩
    induction h with
    | target => exact htarget
    | member _ hdeclares hdelete hjoin htarget hrow hmember ih =>
      exact (hdone _ ih).members _ _ _ _ rfl ⟨hdeclares, hdelete, hjoin, htarget⟩ hrow _ hmember
  refine ⟨fun n k => ⟨fun h => ?_, fun ⟨⟨old, hold⟩, hnone⟩ => ?_⟩, fun n k new hnew => ?_,
    fun table link => ⟨fun h => ?_, fun ⟨hlink, hnames⟩ => ?_⟩,
    fun fk gone owner hk hgone howner k row hnew hpoints => ?_⟩
  · exact ⟨h.exists_row hfiled hrow, (hdone _ ((hreached n k).1 h)).gone⟩
  · exact (hreached n k).2 (hsettled.sound.missing n k old hold hnone)
  · obtain ⟨old, hold, hcleared⟩ := hsettled.sound.rows n k new hnew
    exact ⟨old, hold, hcleared.mono fun n k hmem => (hreached n k).2 hmem⟩
  · exact ⟨hsettled.sound.links table link h, fun n k hgone =>
      (hdone _ ((hreached n k).1 hgone)).unnamed table link h⟩
  · refine (hsettled.sound.dropped table link hlink).resolve_right ?_
    rintro ⟨e, he, hnamed⟩
    exact hnames e.1 e.2 ((hreached _ _).2 he) hnamed
  · have hmem := (hdone _ ((hreached _ _).1 hgone)).unreferred fk owner hk rfl howner k row hnew hpoints
    cases hnew.symm.trans (hdone _ hmem).gone

/-- Deleting an entity removes exactly what goes with it, the recursion is no deeper than there are
rows, and nothing that is left refers to anything removed. -/
theorem delete_leaves_closure {s : Schema} (hs : s.Referential) {p q : Progress}
    (hfiled : p.tables.Filed s) {resource : String} {target : EntityRef}
    (h : p.apply s (.delete resource target) = .ok q) :
    ∃ r i, s.resource? resource = some r ∧ p.resolve target = .ok i ∧
      p.tables.Left s r.name i.key q.tables ∧
      ∀ fuel last, p.tables.size < fuel →
        ((removeWith s)^[fuel] last r i ⟨p, []⟩).progress = q := by
  obtain ⟨r, i, record, hr, hi, hrow, rfl⟩ := delete_eq_ok h
  have hname : r.name = resource := Schema.name_of_resource? hr
  refine ⟨r, i, hr, hi, removeEntity_left hs hfiled (hname.symm ▸ hr) hrow, fun fuel last hfuel => ?_⟩
  have hstart := unreached_start p
  obtain ⟨more, rfl⟩ := Nat.exists_eq_add_of_le hfuel
  have hagree := (iterate_agree (s := s) p ((removeWith s)^[more] last) (fun _ _ d => d)
    (n := p.tables.size + 1) r i (.refl ⟨p, []⟩) (by omega)).1
  rw [Function.iterate_add_apply, hagree, ← remove_eq_iterate]
  rfl

end Progress

namespace Music

/-- Employees whose reports go with them. -/
def crew : Resource :=
  { employees with
    relationships := employees.relationships.map fun rel =>
      if rel.isMany then { rel with cascade := .delete } else rel }

def crewSchema : Schema where
  table := .ofList [("employees", crew)]
  named := by decide +kernel
  faultless := by decide +kernel

def crewStart : Progress := { store := ⟨staffTables employeeRows, 0⟩ }

/-- The staff is filed in any schema that has only employees, with the identity that they have. -/
theorem filed_employeeRows {s : Schema} {r : Resource} (hone : s.resources = [r])
    (hidentity : r.identityOf? = employees.identityOf?) (hname : r.name = "employees") :
    (staffTables employeeRows).Filed s := by
  have hfiled : (staffTables employeeRows).Filed staff.schema := filed_staffTables (by decide +kernel)
  have hstaff : staff.schema.resource? "employees" = some employees := by decide +kernel
  intro name key r' record hr hrow
  have hmem := Schema.mem_resources.2 ((Schema.name_of_resource? hr).symm ▸ hr)
  rw [hone, List.mem_singleton] at hmem
  subst hmem
  have hsame : name = "employees" := (Schema.name_of_resource? hr).symm.trans hname
  subst hsame
  rw [hidentity]
  exact hfiled "employees" key employees record hstaff hrow

theorem filed_crew : (staffTables employeeRows).Filed crewSchema :=
  filed_employeeRows (r := crew) (by decide +kernel) rfl rfl

/-- With the second employee go the three who report to her. -/
theorem delete_second_left : ∃ q,
    crewStart.apply crewSchema (.delete "employees" (.existing ⟨[.int 2]⟩)) = .ok q ∧
      (staffTables employeeRows).Left crewSchema "employees" "2" q.tables ∧ q.tables.size = 2 := by
  have hok : ((crewStart.apply crewSchema (.delete "employees" (.existing ⟨[.int 2]⟩))).map
      fun q => decide (q.tables.size = 2)) = .ok true := by decide +kernel
  obtain ⟨q, hq, hsize⟩ := Except.map_eq_ok.1 hok
  obtain ⟨r, i, hr, hi, hleft, -⟩ := Progress.delete_leaves_closure
    (by decide +kernel : crewSchema.Referential) (p := crewStart) filed_crew hq
  have hname : r.name = "employees" := Schema.name_of_resource? hr
  cases hi
  rw [hname] at hleft
  exact ⟨q, hq, hleft, of_decide_eq_true hsize⟩

end Music

end NestedResources
