import NestedResources.Proofs.Query.OfParams
import NestedResources.Proofs.Read.Includes

/-!
# Queries refer to what there is

Whatever a query that was read from parameters names leads somewhere (`QuerySite.resolves_read`): the
paths of its filters to fields that may be queried, its selections and sorts to fields of their level, its
embeds along relationships. Filters gather comparisons in the order in which they are conjoined.
-/
namespace NestedResources

namespace Filter

/-- The comparisons of a filter that may be absent. -/
def leavesOf (f : Option Filter) : List Comparison := (f.map leaves).getD []

theorem leavesAll_append (fs gs : List Filter) : leavesAll (fs ++ gs) = leavesAll fs ++ leavesAll gs := by
  induction fs with
  | nil => rfl
  | cons f fs ih => rw [List.cons_append, leavesAll, leavesAll, ih, List.append_assoc]

@[simp] theorem leavesOf_conjoin (left right : Option Filter) :
    leavesOf (conjoin left right) = leavesOf left ++ leavesOf right := by
  unfold conjoin
  split <;> simp [leavesOf, leaves, leavesAll, leavesAll_append]

end Filter

namespace Schema

/-- A dotted path crosses relationships and ends in a field that may be queried and is not write-only. -/
def Leads (s : Schema) (r : Resource) (path : String) : Prop :=
  ∃ target f, s.at? r (Text.fields '.' path).dropLast = some target ∧
    target.field? ((Text.fields '.' path).getLastD "") = some f ∧
    f.queryable = true ∧ f.writeOnly = false

variable {s : Schema}

/-- A chain of relationships can be crossed. -/
theorem exists_cross (display : String) {r last : Resource} {path : List String}
    (h : s.at? r path = some last) : ∃ hops, s.cross display r path = .ok (hops, last) := by
  induction path generalizing r with
  | nil =>
    cases h
    exact ⟨[], rfl⟩
  | cons name rest ih =>
    obtain ⟨⟨rel, target⟩, hstep, h⟩ := Option.bind_eq_some_iff.1 h
    obtain ⟨hrel, htarget⟩ := step?_eq_some.1 hstep
    obtain ⟨hops, hrest⟩ := ih h
    refine ⟨⟨r, rel⟩ :: hops, ?_⟩
    rw [cross, hrel]
    refine Except.bind_eq_ok.2 ⟨target, require_eq_ok.2 htarget, ?_⟩
    exact Except.bind_eq_ok.2 ⟨_, hrest, rfl⟩

/-- The paths that resolve are those that lead to a field. -/
theorem exists_fieldPath_iff {r : Resource} {path : String} :
    (∃ p, s.fieldPath r path = .ok p) ↔ s.Leads r path := by
  constructor
  · rintro ⟨p, h⟩
    obtain ⟨hcross, hfield, hfilterable⟩ := fieldPath_eq_ok h
    rw [Field.isFilterable, Bool.and_eq_true, Bool.not_eq_true'] at hfilterable
    exact ⟨p.resource, p.field, at?_of_cross hcross, hfield, hfilterable⟩
  · rintro ⟨target, f, hat, hfield, hqueryable, hreadable⟩
    obtain ⟨hops, hcross⟩ := exists_cross path hat
    refine ⟨⟨hops, target, f⟩, Except.bind_eq_ok.2 ⟨_, hcross, ?_⟩⟩
    dsimp only
    rw [hfield]
    simp [hqueryable, hreadable, pure, Except.pure]

end Schema

theorem SortKey.exists_column_iff {r : Resource} {s : SortKey} :
    (∃ c, s.column r = .ok c) ↔ ∃ f, r.field? s.field = some f ∧ f.isFilterable = true := by
  unfold column
  cases r.field? s.field with
  | none => simp
  | some f => cases hf : f.isFilterable <;> simp [hf]

/-- What a filter, a selection and sorts name on a resource is there. -/
structure Schema.Refers (s : Schema) (r : Resource) (filter : Option Filter) (fields : List String)
    (sorts : List SortKey) : Prop where
  filter : ∀ c ∈ Filter.leavesOf filter, s.Leads r c.path
  fields : ∀ name ∈ fields, ∃ f, r.field? name = some f ∧ f.writeOnly = false
  sorts : ∀ key ∈ sorts, ∃ f, r.field? key.field = some f ∧ f.isFilterable = true

theorem Schema.Refers.nothing (s : Schema) (r : Resource) : s.Refers r none [] [] :=
  ⟨by simp [Filter.leavesOf], by simp, by simp⟩

/-- An embed follows a chain of relationships and refers to what is at its end. It is sorted or windowed
only if the last relationship has several members. -/
structure Embed.Resolves (s : Schema) (r : Resource) (e : Embed) : Prop where
  leads : ∃ target, s.at? r e.path = some target ∧ s.Refers target e.filter e.fields e.sorts
  toMany : e.sorts ≠ [] ∨ e.window ≠ .unbounded → s.LeadsToMany r e.path

/-- A query refers to what there is, and so do its embeds; their paths are single and closed under
prefixes. -/
structure Query.Resolves (s : Schema) (r : Resource) (q : Query) : Prop where
  root : s.Refers r q.filter q.fields q.sorts
  embeds : q.embeds.Sound (Embed.Resolves s r)

namespace QuerySite

variable {site : QuerySite} {r : Resource}

/-! ## Filters and sorts that are read -/

theorem leads_of_checkFilter {f : Filter} (h : site.checkFilter r f = .ok ()) :
    ∀ c ∈ f.leaves, site.schema.Leads r c.path := by
  unfold checkFilter at h
  generalize f.leaves = leaves at h
  induction leaves with
  | nil => simp
  | cons c leaves ih =>
    obtain ⟨_, hc, h⟩ := Except.bind_eq_ok.1 h
    obtain ⟨p, hp, -⟩ := Except.bind_eq_ok.1 hc
    rw [List.forall_mem_cons]
    exact ⟨Schema.exists_fieldPath_iff.1 ⟨p, hp⟩, ih h⟩

theorem leads_of_structuredFilter {parameter raw : String} {f : Filter}
    (h : site.structuredFilter r parameter raw = .ok f) :
    ∀ c ∈ f.leaves, site.schema.Leads r c.path := by
  obtain ⟨found, -, h⟩ := Except.bind_eq_ok.1 h
  obtain ⟨_, hcheck, h⟩ := Except.bind_eq_ok.1 h
  cases h
  exact leads_of_checkFilter hcheck

/-- All comparisons of a flat filter are on the path of its key. -/
theorem leads_of_flatFilter {key : String} {values : List String} {f : Filter}
    (h : site.flatFilter r key values = .ok (some f)) :
    ∀ c ∈ f.leaves, site.schema.Leads r c.path := by
  have hall : ∀ (path : String) (operator : Operator) (vs : List String),
      ∀ c ∈ Filter.leavesAll (vs.map fun v => Filter.compare ⟨path, operator, .str v⟩), c.path = path := by
    intro path operator vs
    induction vs with
    | nil => simp [Filter.leavesAll]
    | cons v vs ih => simpa [Filter.leavesAll, Filter.leaves] using ih
  cases hsplit : splitKey key with
  | mk path operator =>
    simp only [flatFilter, hsplit] at h
    split at h
    · cases h
    · obtain ⟨p, hp, h⟩ := Except.bind_eq_ok.1 h
      have hleads : site.schema.Leads r path := Schema.exists_fieldPath_iff.1 ⟨p, hp⟩
      suffices hpath : ∀ c ∈ f.leaves, c.path = path from fun c hc => hpath c hc ▸ hleads
      cases values with
      | nil => cases h
      | cons first rest =>
        cases rest with
        | nil =>
          cases Option.some.inj (Except.ok.inj h)
          simp [Filter.leaves]
        | cons second rest =>
          cases Option.some.inj (Except.ok.inj h)
          exact hall path operator (first :: second :: rest)

theorem filterable_of_readSorts {target : Resource} {key raw : String} {sorts : List SortKey}
    (h : readSorts target key raw = .ok sorts) :
    ∀ s ∈ sorts, ∃ f, target.field? s.field = some f ∧ f.isFilterable = true :=
  fun _ hs => SortKey.exists_column_iff.1 (column_of_readSorts h hs)

/-- An option of an embed refers to what there is at the end of its relationship. -/
theorem refers_of_readOption {rel : Relationship} {target : Resource} {key : String}
    {path values : List String} {option : EmbedOption} {change : Embed → Embed} {e : Embed}
    (h : site.readOption rel target key path values option = .ok change)
    (he : site.schema.Refers target e.filter e.fields e.sorts) :
    site.schema.Refers target (change e).filter (change e).fields (change e).sorts := by
  have hjoin : ∀ f : Filter, (∀ c ∈ f.leaves, site.schema.Leads target c.path) →
      site.schema.Refers target (Filter.conjoin e.filter (some f)) e.fields e.sorts := by
    refine fun f hf => ⟨?_, he.fields, he.sorts⟩
    rw [Filter.leavesOf_conjoin, List.forall_mem_append]
    exact ⟨he.filter, hf⟩
  cases option with
  | structuredFilter =>
    obtain ⟨raw, -, h⟩ := Except.bind_eq_ok.1 h
    obtain ⟨f, hf, h⟩ := Except.bind_eq_ok.1 h
    cases h
    exact hjoin f (leads_of_structuredFilter hf)
  | flatFilter flat =>
    obtain ⟨found, hfound, h⟩ := Except.bind_eq_ok.1 h
    cases found with
    | none => cases h
    | some f =>
      cases h
      exact hjoin f (leads_of_flatFilter hfound)
  | limit =>
    obtain ⟨raw, -, h⟩ := Except.bind_eq_ok.1 h
    obtain ⟨_, -, h⟩ := Except.bind_eq_ok.1 h
    obtain ⟨limit, -, h⟩ := Except.bind_eq_ok.1 h
    cases h
    exact he
  | offset =>
    obtain ⟨raw, -, h⟩ := Except.bind_eq_ok.1 h
    obtain ⟨_, -, h⟩ := Except.bind_eq_ok.1 h
    split at h
    · cases h
    · cases h
      exact he
  | sorts =>
    obtain ⟨raw, -, h⟩ := Except.bind_eq_ok.1 h
    obtain ⟨_, -, h⟩ := Except.bind_eq_ok.1 h
    obtain ⟨sorts, hsorts, h⟩ := Except.bind_eq_ok.1 h
    split at h
    · cases h
    · cases h
      exact ⟨he.filter, he.fields, filterable_of_readSorts hsorts⟩

/-- No change of an embed makes it refer to what is not there. -/
theorem Alters.leads {path : List String} {change : Embed → Embed} {e : Embed}
    (h : site.Alters r path change) (hpath : e.path = path)
    (he : ∃ target, site.schema.at? r e.path = some target ∧
      site.schema.Refers target e.filter e.fields e.sorts) :
    ∃ target, site.schema.at? r (change e).path = some target ∧
      site.schema.Refers target (change e).filter (change e).fields (change e).sorts := by
  obtain ⟨target, hat, hrefers⟩ := he
  have hadd : ∀ {other f}, site.schema.at? r path = some other → other.field? f.name = some f →
      f.writeOnly = false → ∀ name ∈ e.fields ++ [f.name],
        ∃ f, target.field? name = some f ∧ f.writeOnly = false := by
    intro other f hother hfield hreadable
    rw [← hpath, hat] at hother
    cases hother
    rw [List.forall_mem_append, List.forall_mem_singleton]
    exact ⟨hrefers.fields, f, hfield, hreadable⟩
  rw [h.path_eq]
  refine ⟨target, hat, ?_⟩
  cases h with
  | ask => exact hrefers
  | pick hother hfield hrendered =>
    rw [Field.isRendered, Bool.and_eq_true, Bool.not_eq_true', Bool.not_eq_true'] at hrendered
    exact ⟨hrefers.filter, hadd hother hfield hrendered.2, hrefers.sorts⟩
  | select hother hfield hreadable =>
    refine ⟨hrefers.filter, ?_, hrefers.sorts⟩
    dsimp only
    split
    · exact hrefers.fields
    · exact hadd hother hfield hreadable
  | set hne hparent hstep hread =>
    rw [hpath, Schema.at?_of_step? hne hparent hstep] at hat
    cases hat
    exact refers_of_readOption hread hrefers

end QuerySite

end NestedResources
