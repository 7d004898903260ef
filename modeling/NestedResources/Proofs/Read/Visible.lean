import NestedResources.Proofs.Read.Reading

/-!
# What is seen decides what is read

Two states of the tables are alike if they have the same links and, under every key, the same row as
far as it is seen. Whatever a query is about, selects and embeds is the same in both: every step of a
path and every embedded member is taken among the rows that are seen.
-/
namespace NestedResources

/-- The same links, and the same rows as far as they are seen. -/
structure Alike (schema : Schema) (t u : Tables) (sees looks : Resource → Record → Bool) : Prop where
  links : ∀ name, t.linksOf name = u.linksOf name
  rows : ∀ name r key, schema.resource? name = some r →
    (t.rowAt? name key).filter (sees r) = (u.rowAt? name key).filter (looks r)

namespace Alike

variable {schema : Schema} {t u : Tables} {sees looks : Resource → Record → Bool}

theorem rowsOf_eq (h : Alike schema t u sees looks) {name : String} {r : Resource}
    (hr : schema.resource? name = some r) :
    (t.rowsOf name).filter (sees r) = (u.rowsOf name).filter (looks r) :=
  Dict.filter_values_eq fun key => h.rows name r key hr

/-- The members of a relationship that are seen. -/
theorem members_eq (h : Alike schema t u sees looks) {rel : Relationship} {target : Resource}
    (htarget : schema.resource? rel.target = some target) (owner : Resource) (record : Record) :
    (t.members schema owner record rel).filter (sees target)
      = (u.members schema owner record rel).filter (looks target) := by
  have hname : target.name = rel.target := Schema.name_of_resource? htarget
  have hrows := h.rowsOf_eq htarget
  have hcolumns : ∀ (columns : List String) (wanted : List Json),
      ((t.rowsOf rel.target).filter (·.hasValues columns wanted)).filter (sees target)
        = ((u.rowsOf rel.target).filter (·.hasValues columns wanted)).filter (looks target) := by
    intro columns wanted
    rw [List.filter_comm, hrows, List.filter_comm]
  simp only [Tables.members, Schema.target?, htarget, hname]
  cases rel.join with
  | foreignKey own other =>
    dsimp only
    cases record.values? own with
    | none => rfl
    | some wanted => exact hcolumns other wanted
  | reverse own other =>
    dsimp only
    cases record.values? own with
    | none => rfl
    | some wanted => exact hcolumns other wanted
  | association table own other =>
    dsimp only
    cases owner.identityOf? record with
    | none => rfl
    | some i =>
      dsimp only
      rw [h.links table, List.filter_filterMap, List.filter_filterMap]
      exact congrArg (List.filterMap · _) (funext fun key => h.rows rel.target target key htarget)

/-- Chains of members are taken among the rows that are seen. -/
theorem reaches_eq (h : Alike schema t u sees looks) (c : Comparison) {path : List String}
    (r : Resource) (record : Record) :
    c.reaches t schema sees r record path = c.reaches u schema looks r record path := by
  induction path generalizing r record with
  | nil => rfl
  | cons name rest ih =>
    cases rest with
    | nil => rfl
    | cons next rest =>
      unfold Comparison.reaches
      cases r.relationship? name with
      | none => rfl
      | some rel =>
        cases htarget : schema.target? rel with
        | none => simp [htarget]
        | some target =>
          simp only [htarget]
          rw [← List.any_filter, h.members_eq htarget, List.any_filter]
          simp only [ih]

mutual

/-- A filter means the same in both states, also where it negates or leads through relationships. -/
theorem holds_eq (h : Alike schema t u sees looks) (r : Resource) (record : Record) :
    ∀ f : Filter, f.holds t schema sees r record = f.holds u schema looks r record
  | .and children => (holdsAll_eq h r record children).1
  | .or children => (holdsAll_eq h r record children).2
  | .not children => congrArg (!·) (holdsAll_eq h r record children).1
  | .compare c => h.reaches_eq c r record

theorem holdsAll_eq (h : Alike schema t u sees looks) (r : Resource) (record : Record) :
    ∀ fs : List Filter, Filter.holdsAll t schema sees r record fs
        = Filter.holdsAll u schema looks r record fs ∧
      Filter.holdsAny t schema sees r record fs = Filter.holdsAny u schema looks r record fs
  | [] => ⟨rfl, rfl⟩
  | f :: fs => by
    simp only [Filter.holdsAll, Filter.holdsAny, holds_eq h r record f, (holdsAll_eq h r record fs).1,
      (holdsAll_eq h r record fs).2, and_self]

end

theorem shown_eq (h : Alike schema t u sees looks) (e : Embed) {rel : Relationship}
    {target : Resource} (htarget : schema.resource? rel.target = some target) (r : Resource)
    (record : Record) :
    e.shown t schema sees r record rel target = e.shown u schema looks r record rel target := by
  have hfilter : ∀ member, e.filter.all (·.holds t schema sees target member)
      = e.filter.all (·.holds u schema looks target member) := fun member => by
    simp only [h.holds_eq]
  simp only [Embed.shown, ← List.filter_filter, h.members_eq htarget, hfilter]

/-- A row carries the same in both states. -/
theorem nested_eq (h : Alike schema t u sees looks) (es : Embeds) (r : Resource) (path : List String)
    (record : Record) :
    es.nested t schema sees r path record = es.nested u schema looks r path record := by
  obtain ⟨n, hn⟩ : ∃ n, es.height - path.length = n := ⟨_, rfl⟩
  induction n using Nat.strongRecOn generalizing r path record with
  | ind n ih =>
    rw [Embeds.nested_eq, Embeds.nested_eq]
    refine congrArg (fun entries => Row.mk record (Entries.ofList entries))
      (List.map_congr_left fun e he => ?_)
    obtain ⟨hm, name, hname⟩ := Embeds.mem_childrenOf.1 he
    unfold Embeds.carried
    cases hstep : schema.step? r (e.path.getLastD "") with
    | none => rfl
    | some x =>
      obtain ⟨rel, target⟩ := x
      have hmember : es.nested t schema sees target e.path = es.nested u schema looks target e.path := by
        funext member
        exact ih _ (hn ▸ Embeds.height_sub_lt hm hname) target e.path member rfl
      simp only [h.shown_eq e (Schema.step?_eq_some.1 hstep).2, hmember]

/-- A query is about the same rows, if its scope lets the same pass. -/
theorem matching_eq (h : Alike schema t u sees looks) (q : Query) {r : Resource}
    (hr : schema.resource? r.name = some r) {scope : Option Predicate}
    (hscope : ∀ record, t.passes schema r scope record = u.passes schema r scope record) :
    q.matching t schema sees r scope = q.matching u schema looks r scope := by
  have hfilter : ∀ record, q.filter.all (·.holds t schema sees r record)
      = q.filter.all (·.holds u schema looks r record) := fun record => by
    simp only [h.holds_eq]
  unfold Query.matching
  simp only [Bool.and_right_comm _ (sees r _), Bool.and_right_comm _ (looks r _), hfilter, hscope]
  simp only [← List.filter_filter, h.rowsOf_eq hr]

theorem selected_eq (h : Alike schema t u sees looks) (q : Query) {r : Resource}
    (hr : schema.resource? r.name = some r) {scope : Option Predicate}
    (hscope : ∀ record, t.passes schema r scope record = u.passes schema r scope record) :
    q.selected t schema sees r scope = q.selected u schema looks r scope := by
  rw [Query.selected, Query.selected, h.matching_eq q hr hscope]

end Alike

end NestedResources
