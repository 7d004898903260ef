import NestedResources.Proofs.Query.Embeds
import NestedResources.Query.OfParams

/-!
# What sets the options of an embed

The options of a path are changed by the keys that name the path, in the order of the keys, and by
nothing else. Embedding a path implicitly sets no option.
-/
namespace NestedResources

namespace Filter

/-- The conjunction of filters from left to right. -/
def conjoinAll (pieces : List Filter) : Option Filter :=
  pieces.foldl (fun f piece => conjoin f (some piece)) none

theorem conjoinAll_concat (pieces : List Filter) (piece : Filter) :
    conjoinAll (pieces ++ [piece]) = conjoin (conjoinAll pieces) (some piece) := by
  simp [conjoinAll]

end Filter

namespace Embeds

variable {es : Embeds} {path other : List String}

/-- What is embedded at a path; a path that is not embedded has no options. -/
def optionsAt (es : Embeds) (path : List String) : Embed := (es.get? path).getD { path }

theorem get?_imply (es : Embeds) (path other : List String) :
    (es.imply path).get? other = (es.get? other).or (if other = path then some { path } else none) := by
  unfold imply
  split
  · rename_i hc
    by_cases h : other = path
    · obtain ⟨e, he, hpath⟩ := List.any_eq_true.1 hc
      have hsome : (es.get? other).isSome := List.find?_isSome.2 ⟨e, he, by simpa [h] using hpath⟩
      obtain ⟨found, hfound⟩ := Option.isSome_iff_exists.1 hsome
      rw [hfound, Option.some_or]
    · rw [if_neg h, Option.or_none]
  · rw [push, get?, get?, List.find?_append]
    by_cases h : path = other <;> simp [h, eq_comm]

@[simp] theorem optionsAt_imply (es : Embeds) (path other : List String) :
    (es.imply path).optionsAt other = es.optionsAt other := by
  rw [optionsAt, optionsAt, get?_imply]
  cases es.get? other with
  | some e => rfl
  | none =>
    by_cases h : other = path
    · rw [if_pos h, h]
      rfl
    · rw [if_neg h]
      rfl

@[simp] theorem optionsAt_ensure (es : Embeds) (path other : List String) :
    (es.ensure path).optionsAt other = es.optionsAt other := by
  unfold ensure
  generalize parents path ++ [path] = steps
  induction steps generalizing es with
  | nil => rfl
  | cons start steps ih => rw [List.foldl_cons, ih, optionsAt_imply]

theorem isSome_get?_ensure (es : Embeds) (path : List String) :
    ((es.ensure path).get? path).isSome = true := by
  rw [ensure, List.foldl_append, List.foldl_cons, List.foldl_nil, get?_imply, if_pos rfl]
  simp

/-- A change of an embed is seen at its path alone. -/
theorem optionsAt_modify {change : Embed → Embed} (hchange : ∀ e, (change e).path = e.path)
    (hpath : (es.get? path).isSome = true) (other : List String) :
    (es.modify path change).optionsAt other
      = if other = path then change (es.optionsAt path) else es.optionsAt other := by
  rw [optionsAt, get?_modify hchange]
  by_cases h : other = path
  · subst h
    obtain ⟨e, he⟩ := Option.isSome_iff_exists.1 hpath
    rw [if_pos rfl, if_pos rfl, optionsAt, he]
    rfl
  · rw [if_neg h, if_neg h]
    rfl

/-- A change of the embed of a path that is embedded first if it is not yet. -/
theorem optionsAt_set {change : Embed → Embed} (hchange : ∀ e, (change e).path = e.path)
    (es : Embeds) (path other : List String) :
    ((es.ensure path).modify path change).optionsAt other
      = if other = path then change (es.optionsAt path) else es.optionsAt other := by
  rw [optionsAt_modify hchange (isSome_get?_ensure es path), optionsAt_ensure, optionsAt_ensure]

theorem optionsAt_of_mem (h : es.paths.Nodup) {e : Embed} (he : e ∈ es.list) :
    es.optionsAt e.path = e := by
  rw [optionsAt, (get?_eq_some_iff h).2 ⟨he, rfl⟩, Option.getD_some]

end Embeds

namespace QuerySite

variable {site : QuerySite} {r : Resource} {params : Params}

/-- The option of an embed that a key stands for, with the path of the embed. -/
def optionOf? (key : String) : Option (List String × EmbedOption) :=
  if key ∈ Query.reserved then none else (EmbedOption.ofKey? key).toOption.join

/-- What the option that a key stands for does to the embed at `path`. -/
def Sets (site : QuerySite) (r : Resource) (params : Params) (key : String) (path : List String)
    (option : EmbedOption) (change : Embed → Embed) : Prop :=
  ∃ parent rel target, site.schema.at? r path.dropLast = some parent ∧
    site.schema.step? parent (path.getLastD "") = some (rel, target) ∧
    site.readOption rel target key path (params.all key) option = .ok change

theorem setOption_eq_ok {es changed : Embeds} {key : String} {path : List String}
    {option : EmbedOption} (h : site.setOption r es key path (params.all key) option = .ok changed) :
    ∃ change, site.Sets r params key path option change ∧
      changed = (es.ensure path).modify path change := by
  obtain ⟨⟨hops, target⟩, hcross, h⟩ := Except.bind_eq_ok.1 h
  cases hlast : hops.getLast? with
  | none =>
    simp only [hlast] at h
    cases h
  | some hop =>
    simp only [hlast] at h
    obtain ⟨change, hchange, h⟩ := Except.bind_eq_ok.1 h
    cases h
    obtain ⟨hat, hstep⟩ := Schema.step?_of_cross hcross hlast
    exact ⟨change, ⟨_, _, _, hat, hstep, hchange⟩, rfl⟩

/-- A key is passed over, or sets an option of an embed, or is a flat filter. -/
theorem readKeys_cons_eq_ok {key : String} {keys : List String} {es found : Embeds}
    {filters : List Filter} (h : site.readKeys r params (key :: keys) es = .ok (found, filters)) :
    (key ∈ Query.reserved ∧ site.readKeys r params keys es = .ok (found, filters)) ∨
    (∃ path option change, optionOf? key = some (path, option) ∧
      site.Sets r params key path option change ∧
      site.readKeys r params keys ((es.ensure path).modify path change) = .ok (found, filters)) ∨
    (key ∉ Query.reserved ∧ EmbedOption.ofKey? key = .ok none ∧ ∃ filter others,
      site.flatFilter r key (params.all key) = .ok filter ∧
      site.readKeys r params keys es = .ok (found, others) ∧ filters = filter.toList ++ others) := by
  unfold readKeys at h
  split at h
  · rename_i hreserved
    exact .inl ⟨hreserved, h⟩
  · rename_i hfree
    obtain ⟨option, hoption, h⟩ := Except.bind_eq_ok.1 h
    cases option with
    | some o =>
      obtain ⟨path, option⟩ := o
      obtain ⟨changed, hchanged, h⟩ := Except.bind_eq_ok.1 h
      obtain ⟨change, hsets, rfl⟩ := setOption_eq_ok hchanged
      refine .inr (.inl ⟨path, option, change, ?_, hsets, h⟩)
      rw [optionOf?, if_neg hfree, hoption]
      rfl
    | none =>
      obtain ⟨filter, hfilter, h⟩ := Except.bind_eq_ok.1 h
      obtain ⟨⟨rest, others⟩, hrest, h⟩ := Except.bind_eq_ok.1 h
      cases h
      exact .inr (.inr ⟨hfree, hoption, filter, others, hfilter, hrest, rfl⟩)

/-- Reserved keys are passed over. -/
theorem readKeys_append_reserved {more : List String} (h : ∀ key ∈ more, key ∈ Query.reserved)
    (keys : List String) (es : Embeds) :
    site.readKeys r params (keys ++ more) es = site.readKeys r params keys es := by
  induction keys generalizing es with
  | nil =>
    rw [List.nil_append]
    induction more with
    | nil => rfl
    | cons key more ih =>
      simp only [readKeys, if_pos (h key List.mem_cons_self)]
      exact ih fun other hother => h other (List.mem_cons_of_mem key hother)
  | cons key keys ih => simp only [List.cons_append, readKeys, ih]

end QuerySite

end NestedResources
