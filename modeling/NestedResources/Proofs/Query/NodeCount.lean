import Mathlib.Algebra.Ring.Nat
import NestedResources.Proofs.Filter.Grammar
import NestedResources.Proofs.Filter.Meaning
import NestedResources.Proofs.Query.EmbedOptions
import NestedResources.Proofs.Query.OfParams

/-!
# How many nodes a query has

The node limit bounds the filter at the root and every structured filter by itself. The filter of an
embed is the conjunction of what its keys stand for, one after the other; the flat keys among them bring
a node for every value, and no limit applies to the conjunction (`QuerySite.nodes_of_read`).
-/
namespace NestedResources

namespace Filter

/-- The nodes of a filter that may be absent. -/
def nodesOf (f : Option Filter) : Nat := (f.map nodeCount).getD 0

/-- A conjunction takes one node more than its parts at most. -/
theorem nodesOf_conjoin (f : Option Filter) (piece : Filter) :
    nodesOf (conjoin f (some piece)) ≤ nodesOf f + piece.nodeCount + 1 := by
  unfold conjoin
  split
  · simp_all [nodesOf]
  · simp_all
  · simp_all [nodesOf, nodeCount, Structured.nodeCountAll_append]
    omega
  · simp_all [nodesOf, nodeCount, Structured.nodeCountAll_append, nodeCountAll]
  · simp_all [nodesOf, nodeCount, nodeCountAll]

end Filter

/-- The nodes of the filters of all embeds. -/
def Embeds.nodes (es : Embeds) : Nat := (es.list.map fun e => Filter.nodesOf e.filter).sum

/-- The nodes of the filter at the root and of the filters of all embeds. -/
def Query.nodes (q : Query) : Nat := Filter.nodesOf q.filter + q.embeds.nodes

namespace Embeds

/-- Embedding a path brings no filter. -/
theorem nodes_ensure (es : Embeds) (path : List String) : (es.ensure path).nodes = es.nodes := by
  have himply : ∀ (es : Embeds) (start : List String), (es.imply start).nodes = es.nodes := by
    intro es start
    unfold imply
    split
    · rfl
    · simp [push, nodes, Filter.nodesOf]
  unfold ensure
  generalize parents path ++ [path] = steps
  induction steps generalizing es with
  | nil => rfl
  | cons start steps ih => rw [List.foldl_cons, ih, himply]

/-- A change of one embed brings no more nodes than it brings into the embed. -/
theorem nodes_modify {change : Embed → Embed} {more : Nat}
    (h : ∀ e, Filter.nodesOf (change e).filter ≤ Filter.nodesOf e.filter + more) (es : Embeds)
    (path : List String) : (es.modify path change).nodes ≤ es.nodes + more := by
  suffices hlist : ∀ l : List Embed, ((modifyFirst path change l).map fun e =>
      Filter.nodesOf e.filter).sum ≤ (l.map fun e => Filter.nodesOf e.filter).sum + more from hlist es.list
  intro l
  induction l with
  | nil => exact Nat.zero_le _
  | cons e l ih =>
    unfold modifyFirst
    split
    · have he := h e
      simp only [List.map_cons, List.sum_cons]
      omega
    · simp only [List.map_cons, List.sum_cons]
      omega

/-- The same filters everywhere. -/
structure SameFilters (es changed : Embeds) : Prop where
  filters : ∀ path, (changed.optionsAt path).filter = (es.optionsAt path).filter
  nodes : changed.nodes = es.nodes

theorem SameFilters.trans {es₁ es₂ es₃ : Embeds} (h : es₁.SameFilters es₂) (h' : es₂.SameFilters es₃) :
    es₁.SameFilters es₃ :=
  ⟨fun path => (h'.filters path).trans (h.filters path), h'.nodes.trans h.nodes⟩

theorem SameFilters.refl (es : Embeds) : es.SameFilters es := ⟨fun _ => rfl, rfl⟩

theorem sameFilters_ensure (es : Embeds) (path : List String) : es.SameFilters (es.ensure path) :=
  ⟨fun other => by rw [optionsAt_ensure], nodes_ensure es path⟩

theorem sameFilters_modify (change : Embed → Embed) (hpath : ∀ e, (change e).path = e.path)
    (hfilter : ∀ e, (change e).filter = e.filter) (es : Embeds) (path : List String) :
    es.SameFilters (es.modify path change) where
  filters other := by
    rw [optionsAt, get?_modify hpath, optionsAt]
    split
    · cases es.get? other with
      | none => rfl
      | some e => exact hfilter e
    · rfl
  nodes := congrArg List.sum (map_modify fun e => by rw [hfilter])

end Embeds

namespace EmbedOption

def isFilter : EmbedOption → Bool
  | structuredFilter | flatFilter _ => true
  | _ => false

/-- The nodes of a flat filter on a number of values: one for each, and one for their alternative. -/
def alternatives : Nat → Nat
  | 1 => 1
  | values => values + 1

/-- The greatest number of nodes that an option brings into the filter of its embed, the one that joins
it to what is there included. -/
def nodeBound (limit : Nat) (values : List String) : EmbedOption → Nat
  | structuredFilter => limit + 1
  | flatFilter _ => alternatives values.length + 1
  | _ => 0

/-- The filters that an option may stand for, as far as their nodes tell. -/
def Stands (limit : Nat) (values : List String) (piece : Filter) : EmbedOption → Prop
  | structuredFilter => piece.nodeCount ≤ limit
  | flatFilter _ => piece.nodeCount = alternatives values.length
  | _ => False

theorem Stands.le {limit : Nat} {values : List String} {piece : Filter} {option : EmbedOption}
    (h : option.Stands limit values piece) : piece.nodeCount + 1 ≤ option.nodeBound limit values := by
  cases option with
  | structuredFilter => exact Nat.succ_le_succ h
  | flatFilter flat => exact Nat.le_of_eq (congrArg (· + 1) h)
  | _ => exact h.elim

end EmbedOption

namespace QuerySite

variable {site : QuerySite} {r : Resource} {params : Params}

/-! ## One key -/

theorem nodeCount_flatFilter {key : String} {values : List String} {piece : Filter}
    (h : site.flatFilter r key values = .ok (some piece)) :
    piece.nodeCount = EmbedOption.alternatives values.length := by
  have hall : ∀ (c : String → Comparison) (vs : List String),
      Filter.nodeCountAll (vs.map fun v => Filter.compare (c v)) = vs.length := by
    intro c vs
    induction vs with
    | nil => rfl
    | cons v vs ih =>
      simp only [List.map_cons, Filter.nodeCountAll, Filter.nodeCount, ih, List.length_cons]
      omega
  cases hsplit : splitKey key with
  | mk path operator =>
    simp only [flatFilter, hsplit] at h
    split at h
    · cases h
    · obtain ⟨_, -, h⟩ := Except.bind_eq_ok.1 h
      cases values with
      | nil => cases h
      | cons first rest =>
        cases rest with
        | nil =>
          cases Option.some.inj (Except.ok.inj h)
          rfl
        | cons second rest =>
          cases Option.some.inj (Except.ok.inj h)
          exact congrArg (· + 1) (hall _ (first :: second :: rest))

theorem nodeCount_structuredFilter {parameter raw : String} {f : Filter}
    (h : site.structuredFilter r parameter raw = .ok f) : f.nodeCount ≤ site.limits.filterNodes := by
  obtain ⟨found, hfound, h⟩ := Except.bind_eq_ok.1 h
  obtain ⟨_, -, h⟩ := Except.bind_eq_ok.1 h
  cases h
  unfold Filter.readStructured at hfound
  split at hfound
  · exact (Filter.ofStructured_eq_ok.1 hfound).2
  · split at hfound <;> cases hfound

/-- An option that is a filter is joined to the filter that is there; any other one leaves it alone. -/
theorem filter_of_readOption {rel : Relationship} {target : Resource} {key : String}
    {path values : List String} {option : EmbedOption} {change : Embed → Embed}
    (h : site.readOption rel target key path values option = .ok change) :
    (option.isFilter = true ∧ ∃ piece, option.Stands site.limits.filterNodes values piece ∧
        ∀ e, (change e).filter = Filter.conjoin e.filter (some piece)) ∨
      (option.isFilter = false ∧ ∀ e, (change e).filter = e.filter) := by
  cases option with
  | structuredFilter =>
    obtain ⟨raw, -, h⟩ := Except.bind_eq_ok.1 h
    obtain ⟨f, hf, h⟩ := Except.bind_eq_ok.1 h
    cases h
    exact .inl ⟨rfl, f, nodeCount_structuredFilter hf, fun _ => rfl⟩
  | flatFilter flat =>
    obtain ⟨found, hfound, h⟩ := Except.bind_eq_ok.1 h
    cases found with
    | none => cases h
    | some f =>
      cases h
      exact .inl ⟨rfl, f, nodeCount_flatFilter hfound, fun _ => rfl⟩
  | limit =>
    obtain ⟨raw, -, h⟩ := Except.bind_eq_ok.1 h
    obtain ⟨_, -, h⟩ := Except.bind_eq_ok.1 h
    obtain ⟨limit, -, h⟩ := Except.bind_eq_ok.1 h
    cases h
    exact .inr ⟨rfl, fun _ => rfl⟩
  | offset =>
    obtain ⟨raw, -, h⟩ := Except.bind_eq_ok.1 h
    obtain ⟨_, -, h⟩ := Except.bind_eq_ok.1 h
    split at h
    · cases h
    · cases h
      exact .inr ⟨rfl, fun _ => rfl⟩
  | sorts =>
    obtain ⟨raw, -, h⟩ := Except.bind_eq_ok.1 h
    obtain ⟨_, -, h⟩ := Except.bind_eq_ok.1 h
    obtain ⟨sorts, -, h⟩ := Except.bind_eq_ok.1 h
    split at h
    · cases h
    · cases h
      exact .inr ⟨rfl, fun _ => rfl⟩

/-- An option brings no more nodes into the filter of its embed than its bound. -/
theorem nodesOf_of_readOption {rel : Relationship} {target : Resource} {key : String}
    {path values : List String} {option : EmbedOption} {change : Embed → Embed}
    (h : site.readOption rel target key path values option = .ok change) (e : Embed) :
    Filter.nodesOf (change e).filter
      ≤ Filter.nodesOf e.filter + option.nodeBound site.limits.filterNodes values := by
  rcases filter_of_readOption h with ⟨-, piece, hpiece, hjoin⟩ | ⟨-, hkeep⟩
  · have hconjoin := Filter.nodesOf_conjoin e.filter piece
    have hbound := hpiece.le
    rw [hjoin]
    omega
  · rw [hkeep]
    exact Nat.le_add_right _ _

/-! ## All keys -/

/-- Whether a key filters the embed of a path. -/
def filtersAt (path : List String) (key : String) : Bool :=
  (optionOf? key).any fun o => decide (o.1 = path) && o.2.isFilter

/-- What a key brings into the filter of its embed. -/
def Brings (site : QuerySite) (params : Params) (key : String) (piece : Filter) : Prop :=
  ∃ path option, optionOf? key = some (path, option) ∧
    option.Stands site.limits.filterNodes (params.all key) piece

/-- The greatest number of nodes that a key brings into the filter of an embed. -/
def nodeBound (site : QuerySite) (params : Params) (key : String) : Nat :=
  ((optionOf? key).map fun o => o.2.nodeBound site.limits.filterNodes (params.all key)).getD 0

/-- The filter of an embed is the conjunction of what the keys bring into it. -/
def Gathers (site : QuerySite) (params : Params) (keys : List String) (es : Embeds) : Prop :=
  ∀ path, ∃ pieces, List.Forall₂ (site.Brings params) (keys.filter (filtersAt path)) pieces ∧
    (es.optionsAt path).filter = Filter.conjoinAll pieces

theorem gathers_set {done : List String} {es : Embeds} {key : String} {path : List String}
    {option : EmbedOption} {change : Embed → Embed} (h : site.Gathers params done es)
    (hkey : optionOf? key = some (path, option)) (hsets : site.Sets r params key path option change) :
    site.Gathers params (done ++ [key]) ((es.ensure path).modify path change) := by
  obtain ⟨_, rel, target, -, -, hchange⟩ := hsets
  intro other
  obtain ⟨pieces, hpieces, hfilter⟩ := h other
  rw [Embeds.optionsAt_set fun e => (readOption_spec hchange e).1, List.filter_append]
  have hat : filtersAt other key = (decide (path = other) && option.isFilter) := by
    rw [filtersAt, hkey, Option.any_some]
  rcases filter_of_readOption hchange with ⟨his, piece, hpiece, hjoin⟩ | ⟨his, hkeep⟩
  · by_cases hother : other = path
    · subst hother
      refine ⟨pieces ++ [piece], ?_, ?_⟩
      · rw [List.filter_singleton, hat, his, decide_eq_true rfl]
        exact List.rel_append hpieces (.cons ⟨other, option, hkey, hpiece⟩ .nil)
      · rw [if_pos rfl, hjoin, hfilter, Filter.conjoinAll_concat]
    · refine ⟨pieces, ?_, by rw [if_neg hother, hfilter]⟩
      rw [List.filter_singleton, hat, decide_eq_false (Ne.symm hother)]
      simpa using hpieces
  · refine ⟨pieces, ?_, ?_⟩
    · rw [List.filter_singleton, hat, his, Bool.and_false]
      simpa using hpieces
    · split
      · rename_i hother
        rw [hkeep, ← hother, hfilter]
      · exact hfilter

theorem gathers_skip {done : List String} {es : Embeds} {key : String}
    (h : site.Gathers params done es) (hkey : optionOf? key = none) :
    site.Gathers params (done ++ [key]) es := by
  intro path
  obtain ⟨pieces, hpieces, hfilter⟩ := h path
  refine ⟨pieces, ?_, hfilter⟩
  rw [List.filter_append, List.filter_singleton, filtersAt, hkey]
  simpa using hpieces

/-- Going through keys gathers what they bring, and adds no more nodes than they may bring. -/
theorem gathers_readKeys {done keys : List String} {es found : Embeds} {filters : List Filter}
    (hes : site.Gathers params done es) (h : site.readKeys r params keys es = .ok (found, filters)) :
    site.Gathers params (done ++ keys) found ∧
      found.nodes ≤ es.nodes + (keys.map (site.nodeBound params)).sum := by
  induction keys generalizing done es filters with
  | nil =>
    cases h
    exact ⟨by simpa using hes, Nat.le_add_right _ _⟩
  | cons key keys ih =>
    rw [List.map_cons, List.sum_cons]
    rcases readKeys_cons_eq_ok h with ⟨hreserved, h⟩ | ⟨path, option, change, hkey, hsets, h⟩ |
      ⟨hfree, hnone, -, others, -, h, -⟩
    · have hkey : optionOf? key = none := if_pos hreserved
      obtain ⟨hfound, hnodes⟩ := ih (gathers_skip hes hkey) h
      exact ⟨by simpa using hfound, by omega⟩
    · obtain ⟨hfound, hnodes⟩ := ih (gathers_set hes hkey hsets) h
      obtain ⟨_, rel, target, -, -, hchange⟩ := hsets
      have hbound : site.nodeBound params key
          = option.nodeBound site.limits.filterNodes (params.all key) := by
        rw [nodeBound, hkey, Option.map_some, Option.getD_some]
      have hstep := Embeds.nodes_modify (nodesOf_of_readOption hchange) (es.ensure path) path
      rw [Embeds.nodes_ensure] at hstep
      exact ⟨by simpa using hfound, by omega⟩
    · have hkey : optionOf? key = none := by
        rw [optionOf?, if_neg hfree, hnone]
        rfl
      obtain ⟨hfound, hnodes⟩ := ih (gathers_skip hes hkey) h
      exact ⟨by simpa using hfound, by omega⟩

/-! ## The query -/

/-- An entry of `embeds` brings no filter. -/
theorem sameFilters_addEmbed {es added : Embeds} {entry : String}
    (h : site.addEmbed r es entry = .ok added) : es.SameFilters added := by
  obtain ⟨⟨path, field⟩, -, h⟩ := Except.bind_eq_ok.1 h
  obtain ⟨requested, hrequested, h⟩ := Except.bind_eq_ok.1 h
  have hsame : es.SameFilters requested := by
    unfold Embeds.request at hrequested
    split at hrequested
    · cases hrequested
    · cases hrequested
      exact (es.sameFilters_ensure path).trans (Embeds.sameFilters_modify _ (by intro; rfl) (by intro; rfl) _ _)
  cases field with
  | none =>
    cases h
    exact hsame
  | some f =>
    cases h
    exact hsame.trans (Embeds.sameFilters_modify _ (by intro; rfl) (by intro; rfl) _ _)

/-- An entry of `fields` brings no filter. -/
theorem sameFilters_addField {q changed : Query} {entry : String}
    (h : site.addField r q entry = .ok changed) :
    changed.filter = q.filter ∧ q.embeds.SameFilters changed.embeds := by
  unfold addField at h
  obtain ⟨⟨hops, target⟩, -, h⟩ := Except.bind_eq_ok.1 h
  dsimp only at h
  split at h
  · cases h
  · split at h
    · cases h
    · split at h
      · cases h
      · split at h
        · cases h
          exact ⟨rfl, .refl _⟩
        · cases h
          exact ⟨rfl, Embeds.sameFilters_modify _ (by intro; rfl) (by intro; rfl) _ _⟩

theorem nodes_of_readFilter {flat : List Filter} {raws : List String} {filter : Option Filter}
    (h : site.readFilter r flat raws = .ok filter) : Filter.nodesOf filter ≤ site.limits.filterNodes := by
  obtain ⟨found, -, h⟩ := Except.bind_eq_ok.1 h
  split at h
  · cases h
  · rename_i hle
    cases h
    exact Nat.not_lt.1 hle

/-- The node limit bounds the filter at the root. The filter of each embed is the conjunction of what the
keys that name its path stand for, in their order. All of it together has no more nodes than the limit and
what each key may bring. -/
theorem nodes_of_read {q : Query} (h : site.read r params = .ok q) :
    Filter.nodesOf q.filter ≤ site.limits.filterNodes ∧
    (∀ e ∈ q.embeds.list, ∃ pieces,
      List.Forall₂ (site.Brings params) (params.keys.filter (filtersAt e.path)) pieces ∧
        e.filter = Filter.conjoinAll pieces) ∧
    q.nodes ≤ site.limits.filterNodes + (params.keys.map (site.nodeBound params)).sum := by
  have hsound := sound_read h
  obtain ⟨window, -, h⟩ := Except.bind_eq_ok.1 h
  obtain ⟨es, hes, h⟩ := Except.bind_eq_ok.1 h
  obtain ⟨⟨found, flat⟩, hfound, h⟩ := Except.bind_eq_ok.1 h
  obtain ⟨filter, hfilter, h⟩ := Except.bind_eq_ok.1 h
  obtain ⟨selected, hselected, h⟩ := Except.bind_eq_ok.1 h
  have hadded : Embeds.empty.SameFilters es :=
    Except.foldlM_induction (fun _ _ _ hb hstep => hb.trans (sameFilters_addEmbed hstep)) (.refl _) hes
  have hstart : site.Gathers params [] es := fun path => ⟨[], .nil, hadded.filters path⟩
  obtain ⟨hgathers, hnodes⟩ := gathers_readKeys hstart hfound
  rw [hadded.nodes] at hnodes
  obtain ⟨hroot, hsame⟩ : selected.filter = filter ∧ found.SameFilters selected.embeds :=
    Except.foldlM_induction (p := fun q : Query => q.filter = filter ∧ found.SameFilters q.embeds)
      (fun _ _ _ hb hstep => (sameFilters_addField hstep).imp (·.trans hb.1) hb.2.trans)
      ⟨rfl, .refl _⟩ hselected
  have hlimit := nodes_of_readFilter hfilter
  obtain ⟨hqfilter, hqembeds⟩ : q.filter = filter ∧ q.embeds = selected.embeds := by
    split at h
    · cases h
      exact ⟨hroot, rfl⟩
    · obtain ⟨sorts, -, h⟩ := Except.bind_eq_ok.1 h
      cases h
      exact ⟨hroot, rfl⟩
  refine ⟨hqfilter ▸ hlimit, fun e he => ?_, ?_⟩
  · obtain ⟨pieces, hpieces, hjoin⟩ := hgathers e.path
    refine ⟨pieces, hpieces, ?_⟩
    rw [← hjoin, ← hsame.filters, ← hqembeds, Embeds.optionsAt_of_mem hsound.single he]
  · rw [Query.nodes, hqfilter, hqembeds, hsame.nodes]
    change found.nodes ≤ 0 + _ at hnodes
    omega

end QuerySite

namespace Music

/-- The staff, read by queries of one filter node. -/
def tightSite : QuerySite := ⟨staff.schema, { filterNodes := 1 }⟩

/-- Everyone called Nancy, with those of their reports who have one of two names. -/
def namedReports : Params := ⟨[("first_name", "Nancy"), ("reports._subquery_.first_name", "Jane"),
  ("reports._subquery_.first_name", "Margaret")]⟩

theorem nodes_of_read_namedReports : ∃ q, tightSite.read employees namedReports = .ok q ∧
    Filter.nodesOf q.filter ≤ 1 ∧ q.nodes ≤ 5 := by
  have hok : (tightSite.read employees namedReports).isOk := by decide +kernel
  obtain ⟨q, hq⟩ := Except.exists_of_isOk hok
  obtain ⟨hroot, -, hall⟩ := QuerySite.nodes_of_read hq
  have hbound : (namedReports.keys.map (tightSite.nodeBound namedReports)).sum = 4 := by decide +kernel
  rw [hbound] at hall
  exact ⟨q, hq, hroot, hall⟩

/-- One key of an embed with two values has more nodes than the whole query may have. -/
theorem namedReports_above_limit : ∃ q, tightSite.read employees namedReports = .ok q ∧
    tightSite.limits.filterNodes = 1 ∧ q.nodes = 4 := by
  have hnodes : ((tightSite.read employees namedReports).map Query.nodes).toOption = some 4 := by
    decide +kernel
  obtain ⟨q, hq, hfour⟩ := Except.map_eq_ok.1 (Except.toOption_eq_some.1 hnodes)
  exact ⟨q, hq, rfl, hfour⟩

end Music

end NestedResources
