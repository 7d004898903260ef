import NestedResources.Proofs.Query.EmbedOptions
import NestedResources.Proofs.Query.Params
import NestedResources.Proofs.Text

/-!
# Directives of a listing and of an embed

Flat filters, a sort list, a limit and an offset may be given for a listing, or for the embed of a
relationship that leads to the same resource, under other keys. They are read by different steps and come
to the same (`QuerySite.read_embedding`, `QuerySite.read_listing`).
-/
namespace NestedResources

/-- A relationship name that parameters can spell: one entry of a list, one step of a path, and no
marker. -/
structure Spellable (name : String) : Prop where
  entry : Text.commaList name = [name]
  step : Text.fields '.' name = [name]
  free : name ∉ EmbedOption.markers

namespace EmbedOption

/-- The key of an option of the embed of a relationship. -/
def keyOf (name : String) : EmbedOption → String
  | structuredFilter => Text.join "." [name, "_subquery_"]
  | flatFilter flat => Text.join "." [name, "_subquery_", flat]
  | limit => Text.join "." [name, "_limit_"]
  | offset => Text.join "." [name, "_offset_"]
  | sorts => Text.join "." [name, "_sorts_"]

/-- The key of an option is read as the option. -/
theorem ofKey?_keyOf {name : String} (h : Spellable name) (option : EmbedOption) :
    ofKey? (option.keyOf name) = .ok (some ([name], option)) := by
  have hread (marker : String) (rest : List String) (hmarker : marker ∈ markers)
      (hfields : Text.fields '.' (option.keyOf name) = name :: marker :: rest) :
      ofKey? (option.keyOf name) = (ofMarker (option.keyOf name) marker rest).map fun o => some ([name], o) := by
    simp [ofKey?, hfields, h.free, hmarker]
  have hjoin (words : List String) (hwords : words ≠ []) :
      Text.fields '.' (Text.join "." (name :: words)) = name :: words.flatMap (Text.fields '.') := by
    rw [show "." = String.singleton '.' from rfl, Text.fields_join '.' (List.cons_ne_nil name words),
      List.flatMap_cons, h.step]
    rfl
  cases option with
  | structuredFilter => exact hread "_subquery_" [] (by decide) (hjoin ["_subquery_"] (by simp))
  | limit => exact hread "_limit_" [] (by decide) (hjoin ["_limit_"] (by simp))
  | offset => exact hread "_offset_" [] (by decide) (hjoin ["_offset_"] (by simp))
  | sorts => exact hread "_sorts_" [] (by decide) (hjoin ["_sorts_"] (by simp))
  | flatFilter flat =>
    have hfields : Text.fields '.' ((flatFilter flat).keyOf name) = name :: "_subquery_" :: Text.fields '.' flat := by
      rw [keyOf, hjoin ["_subquery_", flat] (by simp), List.flatMap_cons, List.flatMap_singleton]
      rfl
    rw [hread "_subquery_" _ (by decide) hfields, ofMarker, if_pos (.inl rfl),
      if_neg (Text.fields_ne_nil '.' flat), show "." = String.singleton '.' from rfl, Text.join_fields]
    rfl

theorem keyOf_injective {name : String} (h : Spellable name) : (keyOf name).Injective := by
  intro option other heq
  have hsame := (ofKey?_keyOf h option).symm.trans (heq ▸ ofKey?_keyOf h other)
  simpa using hsame

theorem keyOf_notMem_reserved {name : String} (h : Spellable name) (option : EmbedOption) :
    option.keyOf name ∉ Query.reserved := by
  have hreserved : ∀ key ∈ Query.reserved, (ofKey? key).toOption.join = none := by decide +kernel
  intro hmem
  have hnone := hreserved _ hmem
  rw [ofKey?_keyOf h] at hnone
  cases hnone

theorem optionOf?_keyOf {name : String} (h : Spellable name) (option : EmbedOption) :
    QuerySite.optionOf? (option.keyOf name) = some ([name], option) := by
  rw [QuerySite.optionOf?, if_neg (keyOf_notMem_reserved h option), ofKey?_keyOf h]
  rfl

end EmbedOption

namespace QuerySite

variable {site : QuerySite} {r target : Resource} {rel : Relationship} {params : Params} {e : Embed}
  {name key : String} {keys : List String} {found : Embeds} {filters : List Filter}

/-! ## Options of one embed -/

/-- What an option has to be, and what it sets. -/
theorem readOption_eq_ok {values path : List String} {option : EmbedOption} {change : Embed → Embed}
    (h : site.readOption rel target key path values option = .ok change) :
    match option with
    | .structuredFilter => ∃ f, change = fun e => { e with filter := Filter.conjoin e.filter (some f) }
    | .flatFilter flat => ∃ f, site.flatFilter target flat values = .ok (some f) ∧
        change = fun e => { e with filter := Filter.conjoin e.filter (some f) }
    | .limit => ∃ raw n, singleValue key path values = .ok raw ∧ Window.positive? raw = some n ∧
        change = fun e => { e with window := { e.window with limit := some n } }
    | .offset => ∃ raw n, singleValue key path values = .ok raw ∧ Window.natural? raw = some n ∧
        change = fun e => { e with window := { e.window with offset := n } }
    | .sorts => ∃ raw sorts, singleValue key path values = .ok raw ∧ readSorts target key raw = .ok sorts ∧
        change = fun e => { e with sorts } := by
  cases option with
  | structuredFilter =>
    obtain ⟨_, -, h⟩ := Except.bind_eq_ok.1 h
    obtain ⟨f, -, h⟩ := Except.bind_eq_ok.1 h
    cases h
    exact ⟨f, rfl⟩
  | flatFilter flat =>
    obtain ⟨filter, hfilter, h⟩ := Except.bind_eq_ok.1 h
    cases filter with
    | none => cases h
    | some f =>
      cases h
      exact ⟨f, hfilter, rfl⟩
  | limit =>
    obtain ⟨raw, hraw, h⟩ := Except.bind_eq_ok.1 h
    obtain ⟨_, -, h⟩ := Except.bind_eq_ok.1 h
    obtain ⟨n, hn, h⟩ := Except.bind_eq_ok.1 h
    cases h
    refine ⟨raw, n, hraw, ?_, rfl⟩
    unfold readLimit at hn
    split at hn
    · cases hn
    · rename_i limit hlimit
      rw [hlimit]
      split at hn
      · split at hn
        · cases hn
        · exact congrArg some (Except.ok.inj hn)
      · exact congrArg some (Except.ok.inj hn)
  | offset =>
    obtain ⟨raw, hraw, h⟩ := Except.bind_eq_ok.1 h
    obtain ⟨_, -, h⟩ := Except.bind_eq_ok.1 h
    cases hn : Window.natural? raw with
    | none =>
      rw [hn] at h
      cases h
    | some n =>
      rw [hn] at h
      cases h
      exact ⟨raw, n, hraw, hn, rfl⟩
  | sorts =>
    obtain ⟨raw, hraw, h⟩ := Except.bind_eq_ok.1 h
    obtain ⟨_, -, h⟩ := Except.bind_eq_ok.1 h
    obtain ⟨sorts, hsorts, h⟩ := Except.bind_eq_ok.1 h
    refine ⟨raw, sorts, hraw, hsorts, ?_⟩
    cases sorts with
    | nil => cases h
    | cons s sorts => exact (Except.ok.inj h).symm

section

variable (hrel : r.relationship? name = some rel) (htarget : site.schema.target? rel = some target)

include hrel htarget

/-- An option of the embed of a relationship changes this embed, if it is the only one. -/
theorem readKeys_option {option : EmbedOption} (hkey : optionOf? key = some ([name], option))
    (hpath : e.path = [name])
    (h : site.readKeys r params (key :: keys) ⟨[e]⟩ = .ok (found, filters)) :
    ∃ change, site.readOption rel target key [name] (params.all key) option = .ok change ∧
      site.readKeys r params keys ⟨[change e]⟩ = .ok (found, filters) := by
  rcases readKeys_cons_eq_ok h with ⟨hreserved, -⟩ | ⟨path, option', change, hkey', hsets, h⟩ | ⟨hfree, hnone, -⟩
  · rw [optionOf?, if_pos hreserved] at hkey
    cases hkey
  · cases hkey.symm.trans hkey'
    obtain ⟨parent, rel', target', hat, hstep, hchange⟩ := hsets
    cases hat
    obtain ⟨hrel', htarget'⟩ := Schema.step?_eq_some.1 hstep
    cases hrel.symm.trans hrel'
    cases htarget.symm.trans htarget'
    refine ⟨change, hchange, ?_⟩
    have hone : ((⟨[e]⟩ : Embeds).ensure [name]).modify [name] change = ⟨[change e]⟩ := by
      simp [Embeds.ensure, Embeds.parents, Embeds.imply, Embeds.contains, Embeds.modify,
        Embeds.modifyFirst, hpath]
    rwa [hone] at h
  · rw [optionOf?, if_neg hfree, hnone] at hkey
    cases hkey

/-- Flat filters of the embed are joined one after the other. -/
theorem readKeys_flatFilters (hname : Spellable name) (hpath : e.path = [name]) {more : List String}
    (h : site.readKeys r params (keys.map (fun key => (EmbedOption.flatFilter key).keyOf name) ++ more) ⟨[e]⟩
      = .ok (found, filters)) :
    ∃ pieces, List.Forall₂ (fun key f => site.flatFilter target key
        (params.all ((EmbedOption.flatFilter key).keyOf name)) = .ok (some f)) keys pieces ∧
      site.readKeys r params more
        ⟨[{ e with filter := pieces.foldl (fun f piece => Filter.conjoin f (some piece)) e.filter }]⟩
          = .ok (found, filters) := by
  induction keys generalizing e with
  | nil => exact ⟨[], .nil, h⟩
  | cons key keys ih =>
    obtain ⟨change, hchange, h⟩ := readKeys_option hrel htarget
      (EmbedOption.optionOf?_keyOf hname (.flatFilter key)) hpath h
    obtain ⟨f, hf, rfl⟩ := readOption_eq_ok hchange
    obtain ⟨pieces, hpieces, h⟩ := ih (by exact hpath) h
    exact ⟨f :: pieces, .cons hf hpieces, h⟩

/-- An option of the embed that may be left out. -/
theorem readKeys_optional (hname : Spellable name) (hpath : e.path = [name]) {more : List String}
    {option : EmbedOption} {raw? : Option String}
    (hall : ∀ raw, raw? = some raw → params.all (option.keyOf name) = [raw])
    (h : site.readKeys r params ((raw?.map fun _ => option.keyOf name).toList ++ more) ⟨[e]⟩
      = .ok (found, filters)) :
    (raw? = none ∧ site.readKeys r params more ⟨[e]⟩ = .ok (found, filters)) ∨
      ∃ raw change, raw? = some raw ∧
        site.readOption rel target (option.keyOf name) [name] [raw] option = .ok change ∧
        site.readKeys r params more ⟨[change e]⟩ = .ok (found, filters) := by
  cases raw? with
  | none => exact .inl ⟨rfl, h⟩
  | some raw =>
    obtain ⟨change, hchange, h⟩ := readKeys_option hrel htarget
      (EmbedOption.optionOf?_keyOf hname option) hpath h
    rw [hall raw rfl] at hchange
    exact .inr ⟨raw, change, rfl, hchange, h⟩

end

end QuerySite

/-- What a listing may be asked for: flat filters, each value by itself, a sort list, a limit and an
offset. -/
structure Directives where
  flat : List (String × String) := []
  sort : Option String := none
  limit : Option String := none
  offset : Option String := none

namespace Directives

variable (s : Directives)

/-- The sort list, the limit and the offset, each under its key. -/
def options (key : EmbedOption → String) : List (String × String) :=
  (s.sort.map (key .sorts, ·)).toList ++ (s.limit.map (key .limit, ·)).toList
    ++ (s.offset.map (key .offset, ·)).toList

/-- The keys of options in a listing. -/
def listingKey : EmbedOption → String
  | .limit => "limit"
  | .offset => "offset"
  | _ => "sort"

/-- The directives for a listing. -/
def listing : Params := Params.append ⟨s.flat⟩ (s.options listingKey)

/-- The directives for the embed of a relationship, which is embedded with them. -/
def embedding (name : String) : Params :=
  ((Params.mapKeys (fun key => (EmbedOption.flatFilter key).keyOf name) ⟨s.flat⟩).append
    (s.options (EmbedOption.keyOf name))).append [("embeds", name)]

/-- The flat filters are read as such. -/
def Flat : Prop := ∀ pair ∈ s.flat, pair.1 ∉ Query.reserved ∧ EmbedOption.ofKey? pair.1 = .ok none

/-- The keys of the flat filters, each once. -/
def flatKeys : List String := Params.keys ⟨s.flat⟩

/-- The values of a flat filter. -/
def flatValues (key : String) : List String := Params.all ⟨s.flat⟩ key

/-- The text of an option, if it is given. -/
def option? : EmbedOption → Option String
  | .sorts => s.sort
  | .limit => s.limit
  | .offset => s.offset
  | _ => none

/-- The window that the offset and the limit say. -/
def window : Window := ⟨(s.offset.bind Window.natural?).getD 0, s.limit.bind Window.positive?⟩

/-! ## Looking up the directives -/

variable {s} {name : String}

theorem mem_options {key : EmbedOption → String} {pair : String × String} (h : pair ∈ s.options key) :
    ∃ option ∈ [EmbedOption.sorts, .limit, .offset], pair.1 = key option := by
  simp only [options, List.mem_append, Option.mem_toList, Option.map_eq_some_iff] at h
  rcases h with (⟨_, -, rfl⟩ | ⟨_, -, rfl⟩) | ⟨_, -, rfl⟩
  · exact ⟨.sorts, by simp, rfl⟩
  · exact ⟨.limit, by simp, rfl⟩
  · exact ⟨.offset, by simp, rfl⟩

section

variable (hname : Spellable name)

include hname

theorem keyOf_ne_of_mem_reserved (option : EmbedOption) {key : String} (hkey : key ∈ Query.reserved) :
    option.keyOf name ≠ key := fun h => EmbedOption.keyOf_notMem_reserved hname option (h ▸ hkey)

theorem flatFilter_keyOf_injective :
    Function.Injective fun key => (EmbedOption.flatFilter key).keyOf name := fun _ _ h =>
  EmbedOption.flatFilter.inj (EmbedOption.keyOf_injective hname h)

/-- What stands behind the flat filters has other keys. -/
theorem key_ne_flatFilter {pair : String × String}
    (h : pair ∈ s.options (EmbedOption.keyOf name) ++ [("embeds", name)]) (key : String) :
    pair.1 ≠ (EmbedOption.flatFilter key).keyOf name := by
  rcases List.mem_append.1 h with h | h
  · obtain ⟨option, hoption, hpair⟩ := mem_options h
    rw [hpair, (EmbedOption.keyOf_injective hname).ne_iff]
    rintro rfl
    simp at hoption
  · rw [List.mem_singleton.1 h]
    have hreserved : "embeds" ∈ Query.reserved := by decide
    exact (keyOf_ne_of_mem_reserved hname _ hreserved).symm

theorem keys_embedding : (s.embedding name).keys =
    s.flatKeys.map (fun key => (EmbedOption.flatFilter key).keyOf name)
      ++ ((s.sort.map fun _ => EmbedOption.sorts.keyOf name).toList
      ++ ((s.limit.map fun _ => EmbedOption.limit.keyOf name).toList
      ++ ((s.offset.map fun _ => EmbedOption.offset.keyOf name).toList ++ ["embeds"]))) := by
  have hmore : (s.options (EmbedOption.keyOf name) ++ [("embeds", name)]).map (·.1)
      = (s.sort.map fun _ => EmbedOption.sorts.keyOf name).toList
      ++ ((s.limit.map fun _ => EmbedOption.limit.keyOf name).toList
      ++ ((s.offset.map fun _ => EmbedOption.offset.keyOf name).toList ++ ["embeds"])) := by
    cases hs : s.sort <;> cases hl : s.limit <;> cases ho : s.offset <;> simp [options, hs, hl, ho]
  have hkeys : (Params.mapKeys (fun key => (EmbedOption.flatFilter key).keyOf name) ⟨s.flat⟩).keys
      = s.flatKeys.map fun key => (EmbedOption.flatFilter key).keyOf name :=
    Params.keys_mapKeys (flatFilter_keyOf_injective hname)
  rw [embedding, Params.append_append, Params.keys_append_of_new, hmore, hkeys]
  · intro pair hpair hmem
    rw [hkeys] at hmem
    obtain ⟨key, -, heq⟩ := List.mem_map.1 hmem
    exact key_ne_flatFilter hname hpair key heq.symm
  · have hfree : ∀ option : EmbedOption, option.keyOf name ≠ "embeds" := fun option =>
      keyOf_ne_of_mem_reserved hname option (by decide)
    rw [hmore]
    cases s.sort <;> cases s.limit <;> cases s.offset <;>
      simp [hfree, (EmbedOption.keyOf_injective hname).eq_iff]

theorem all_embedding_flatFilter (key : String) :
    (s.embedding name).all ((EmbedOption.flatFilter key).keyOf name) = s.flatValues key := by
  have hnone : Params.all ⟨s.options (EmbedOption.keyOf name) ++ [("embeds", name)]⟩
      ((EmbedOption.flatFilter key).keyOf name) = [] := Params.all_eq_nil fun hmem => by
    obtain ⟨pair, hpair, heq⟩ := List.mem_map.1 hmem
    exact key_ne_flatFilter hname hpair key heq
  rw [embedding, Params.append_append, Params.all_append, hnone, List.append_nil]
  exact Params.all_mapKeys (flatFilter_keyOf_injective hname) key

omit hname in
/-- What is not the key of a flat filter is looked up behind the flat filters. -/
theorem all_embedding_of_ne {key : String} (h : ∀ flat, (EmbedOption.flatFilter flat).keyOf name ≠ key) :
    (s.embedding name).all key = Params.all ⟨s.options (EmbedOption.keyOf name) ++ [("embeds", name)]⟩ key := by
  have hnone : (Params.mapKeys (fun flat => (EmbedOption.flatFilter flat).keyOf name) ⟨s.flat⟩).all key = [] :=
    Params.all_eq_nil fun hmem => by
      obtain ⟨pair, hpair, rfl⟩ := List.mem_map.1 hmem
      obtain ⟨flat, -, rfl⟩ := List.mem_map.1 hpair
      exact h flat.1 rfl
  rw [embedding, Params.append_append, Params.all_append, hnone, List.nil_append]

theorem all_embedding_option {option : EmbedOption} (hoption : ∀ flat, option ≠ .flatFilter flat) :
    (s.embedding name).all (option.keyOf name) = (s.option? option).toList := by
  have hinj := EmbedOption.keyOf_injective hname
  have hfree : "embeds" ≠ option.keyOf name := (keyOf_ne_of_mem_reserved hname _ (by decide)).symm
  rw [all_embedding_of_ne fun flat => hinj.ne (hoption flat).symm]
  cases option with
  | flatFilter flat => exact absurd rfl (hoption flat)
  | _ =>
    cases hs : s.sort <;> cases hl : s.limit <;> cases ho : s.offset <;>
      simp [Params.all, options, option?, hs, hl, ho, hinj.eq_iff, hfree]

/-- A reserved key stands neither for a flat filter nor for an option of the embed. -/
theorem key_ne_reserved {key : String} (hkey : key ∈ Query.reserved) :
    key ∉ ((Params.mapKeys (fun flat => (EmbedOption.flatFilter flat).keyOf name) ⟨s.flat⟩).append
      (s.options (EmbedOption.keyOf name))).pairs.map (·.1) := by
  intro hmem
  obtain ⟨pair, hpair, rfl⟩ := List.mem_map.1 hmem
  rcases List.mem_append.1 hpair with hpair | hpair
  · obtain ⟨flat, -, rfl⟩ := List.mem_map.1 hpair
    exact keyOf_ne_of_mem_reserved hname (.flatFilter flat.1) hkey rfl
  · obtain ⟨option, -, hoption⟩ := mem_options hpair
    exact keyOf_ne_of_mem_reserved hname option hkey hoption.symm

theorem all_embedding_reserved {key : String} (hkey : key ∈ Query.reserved) :
    (s.embedding name).all key = Params.all ⟨[("embeds", name)]⟩ key := by
  rw [embedding, Params.all_append, Params.all_eq_nil (key_ne_reserved hname hkey), List.nil_append]

theorem first?_embedding_reserved {key : String} (hkey : key ∈ Query.reserved) :
    (s.embedding name).first? key = Params.first? ⟨[("embeds", name)]⟩ key := by
  rw [embedding, Params.first?_append, Params.first?_eq_none (key_ne_reserved hname hkey), Option.none_or]

end

section

variable (hflat : s.Flat)

include hflat

/-- The flat filters have no reserved keys. -/
theorem Flat.key_ne_reserved {key : String} (hkey : key ∈ Query.reserved) :
    key ∉ (Params.mk s.flat).pairs.map (·.1) := by
  intro hmem
  obtain ⟨pair, hpair, rfl⟩ := List.mem_map.1 hmem
  exact (hflat pair hpair).1 hkey

theorem first?_listing_option (option : EmbedOption) (hoption : option ∈ [EmbedOption.sorts, .limit, .offset]) :
    s.listing.first? (listingKey option) = s.option? option := by
  have hreserved : ∀ option ∈ [EmbedOption.sorts, .limit, .offset], listingKey option ∈ Query.reserved := by
    simp [listingKey, Query.reserved]
  rw [listing, Params.first?_append, Params.first?_eq_none (hflat.key_ne_reserved (hreserved option hoption)),
    Option.none_or]
  simp only [List.mem_cons, List.not_mem_nil, or_false] at hoption
  rcases hoption with rfl | rfl | rfl <;> cases hs : s.sort <;> cases hl : s.limit <;> cases ho : s.offset <;>
    simp [Params.first?, options, option?, listingKey, hs, hl, ho]

/-- A listing has no other reserved keys. -/
theorem key_ne_listing {key : String} (hkey : key ∈ ["embeds", "fields", "page", "query"]) :
    key ∉ s.listing.pairs.map (·.1) := by
  have hfixed : ∀ key ∈ ["embeds", "fields", "page", "query"], key ∈ Query.reserved ∧
      ∀ option ∈ [EmbedOption.sorts, .limit, .offset], listingKey option ≠ key := by
    simp [listingKey, Query.reserved]
  obtain ⟨hreserved, hother⟩ := hfixed key hkey
  intro hmem
  obtain ⟨pair, hpair, rfl⟩ := List.mem_map.1 hmem
  rcases List.mem_append.1 hpair with hpair | hpair
  · exact (hflat pair hpair).1 hreserved
  · obtain ⟨option, hoption, heq⟩ := mem_options hpair
    exact hother option hoption heq.symm

omit hflat in
theorem key_mem_reserved {pair : String × String} (h : pair ∈ s.options listingKey) :
    pair.1 ∈ Query.reserved := by
  obtain ⟨option, hoption, hpair⟩ := mem_options h
  simp only [List.mem_cons, List.not_mem_nil, or_false] at hoption
  rcases hoption with rfl | rfl | rfl <;> simp [hpair, listingKey, Query.reserved]

omit hflat in
theorem all_listing_of_notMem {key : String} (hkey : key ∉ Query.reserved) :
    s.listing.all key = s.flatValues key := by
  have hnone : Params.all ⟨s.options listingKey⟩ key = [] := Params.all_eq_nil fun hmem => by
    obtain ⟨pair, hpair, rfl⟩ := List.mem_map.1 hmem
    exact hkey (key_mem_reserved hpair)
  rw [listing, Params.all_append, hnone, List.append_nil, flatValues]

omit hflat in
/-- The keys of a listing are those of its flat filters, and reserved ones. -/
theorem exists_keys_listing (s : Directives) :
    ∃ more, s.listing.keys = s.flatKeys ++ more ∧ ∀ key ∈ more, key ∈ Query.reserved := by
  obtain ⟨more, hkeys, hmore⟩ := Params.exists_keys_append ⟨s.flat⟩ (s.options listingKey)
  refine ⟨more, hkeys, fun key hkey => ?_⟩
  obtain ⟨pair, hpair, rfl⟩ := List.mem_map.1 (hmore key hkey)
  exact key_mem_reserved hpair

theorem Flat.of_mem_flatKeys {key : String} (hkey : key ∈ s.flatKeys) :
    key ∉ Query.reserved ∧ EmbedOption.ofKey? key = .ok none := by
  obtain ⟨pair, hpair, rfl⟩ := List.mem_map.1 (Params.mem_pairs_of_mem_keys hkey)
  exact hflat pair hpair

end

end Directives

namespace QuerySite

variable {site : QuerySite} {r target : Resource} {rel : Relationship} {name : String} {s : Directives}
  {q : Query}

/-! ## Reading the directives -/

/-- The fields of a sort list do not depend on the parameter that it stands in. -/
theorem readSorts_congr {parameter raw : String} {sorts : List SortKey}
    (h : readSorts target parameter raw = .ok sorts) (other : String) :
    readSorts target other raw = .ok sorts := by
  rw [readSorts, Except.mapM_eq_ok] at h ⊢
  refine h.imp fun key found hkey => ?_
  split at hkey
  · split at hkey
    · rename_i hfilterable
      rwa [if_pos hfilterable]
    · cases hkey
  · cases hkey

/-- The entry of a relationship embeds it alone. -/
theorem addEmbed_name (hname : Spellable name) (hrel : r.relationship? name = some rel) {added : Embeds}
    (h : site.addEmbed r .empty name = .ok added) : added = ⟨[{ path := [name], explicit := true }]⟩ := by
  obtain ⟨⟨path, field⟩, hpath, h⟩ := Except.bind_eq_ok.1 h
  rw [hname.step, embedPath, hrel] at hpath
  obtain ⟨found, -, hpath⟩ := Except.bind_eq_ok.1 hpath
  cases hpath
  obtain ⟨requested, hrequested, h⟩ := Except.bind_eq_ok.1 h
  cases h
  cases hrequested
  simp [Embeds.ensure, Embeds.parents, Embeds.imply, Embeds.contains, Embeds.modify, Embeds.modifyFirst,
    Embeds.empty, Embeds.push]

/-- What directives say for a resource, with the filters that the flat keys stand for. -/
structure Says (site : QuerySite) (target : Resource) (s : Directives) (pieces : List Filter)
    (sorts : List SortKey) : Prop where
  pieces : List.Forall₂ (fun key f => site.flatFilter target key (s.flatValues key) = .ok (some f))
    s.flatKeys pieces
  unsorted : s.sort = none → sorts = []
  sorted : ∀ raw, s.sort = some raw → readSorts target "sort" raw = .ok sorts

section

variable {e : Embed} {more : List String} {found : Embeds} {filters : List Filter}
  (hname : Spellable name) (hrel : r.relationship? name = some rel)
  (htarget : site.schema.target? rel = some target) (hpath : e.path = [name])

include hname hrel htarget hpath

theorem readKeys_sorts (hsorts : e.sorts = [])
    (h : site.readKeys r (s.embedding name)
      ((s.sort.map fun _ => EmbedOption.sorts.keyOf name).toList ++ more) ⟨[e]⟩ = .ok (found, filters)) :
    ∃ sorts, (s.sort = none → sorts = []) ∧
      (∀ raw, s.sort = some raw → readSorts target "sort" raw = .ok sorts) ∧
      site.readKeys r (s.embedding name) more ⟨[{ e with sorts }]⟩ = .ok (found, filters) := by
  have hall (raw : String) (hraw : s.sort = some raw) :
      (s.embedding name).all (EmbedOption.sorts.keyOf name) = [raw] := by
    rw [Directives.all_embedding_option hname (by simp), Directives.option?, hraw, Option.toList_some]
  rcases readKeys_optional hrel htarget hname hpath hall h with ⟨hnone, h⟩ | ⟨raw, change, hraw, hchange, h⟩
  · exact ⟨[], fun _ => rfl, by simp [hnone], hsorts ▸ h⟩
  · obtain ⟨text, sorts, htext, hread, rfl⟩ := readOption_eq_ok hchange
    cases htext
    exact ⟨sorts, by simp [hraw], fun _ h => Option.some.inj (hraw.symm.trans h) ▸ readSorts_congr hread _, h⟩

theorem readKeys_limit (hlimit : e.window.limit = none)
    (h : site.readKeys r (s.embedding name)
      ((s.limit.map fun _ => EmbedOption.limit.keyOf name).toList ++ more) ⟨[e]⟩ = .ok (found, filters)) :
    site.readKeys r (s.embedding name) more
      ⟨[{ e with window := { e.window with limit := s.limit.bind Window.positive? } }]⟩
        = .ok (found, filters) := by
  have hall (raw : String) (hraw : s.limit = some raw) :
      (s.embedding name).all (EmbedOption.limit.keyOf name) = [raw] := by
    rw [Directives.all_embedding_option hname (by simp), Directives.option?, hraw, Option.toList_some]
  rcases readKeys_optional hrel htarget hname hpath hall h with ⟨hnone, h⟩ | ⟨raw, change, hraw, hchange, h⟩
  · rw [hnone, Option.bind_none, ← hlimit]
    exact h
  · obtain ⟨text, n, htext, hread, rfl⟩ := readOption_eq_ok hchange
    cases htext
    rw [hraw, Option.bind_some, hread]
    exact h

theorem readKeys_offset (hoffset : e.window.offset = 0)
    (h : site.readKeys r (s.embedding name)
      ((s.offset.map fun _ => EmbedOption.offset.keyOf name).toList ++ more) ⟨[e]⟩ = .ok (found, filters)) :
    site.readKeys r (s.embedding name) more
      ⟨[{ e with window := { e.window with offset := (s.offset.bind Window.natural?).getD 0 } }]⟩
        = .ok (found, filters) := by
  have hall (raw : String) (hraw : s.offset = some raw) :
      (s.embedding name).all (EmbedOption.offset.keyOf name) = [raw] := by
    rw [Directives.all_embedding_option hname (by simp), Directives.option?, hraw, Option.toList_some]
  rcases readKeys_optional hrel htarget hname hpath hall h with ⟨hnone, h⟩ | ⟨raw, change, hraw, hchange, h⟩
  · rw [hnone, Option.bind_none, Option.getD_none, ← hoffset]
    exact h
  · obtain ⟨text, n, htext, hread, rfl⟩ := readOption_eq_ok hchange
    cases htext
    rw [hraw, Option.bind_some, hread, Option.getD_some]
    exact h

end

/-- The directives for an embed are what the embed has. -/
theorem read_embedding (hname : Spellable name) (hrel : r.relationship? name = some rel)
    (htarget : site.schema.target? rel = some target) (h : site.read r (s.embedding name) = .ok q) :
    q.filter = none ∧ q.fields = [] ∧ ∃ e pieces, q.embeds = ⟨[e]⟩ ∧ e.path = [name] ∧ e.fields = [] ∧
      site.Says target s pieces e.sorts ∧ e.filter = Filter.conjoinAll pieces ∧ e.window = s.window := by
  obtain ⟨window, -, h⟩ := Except.bind_eq_ok.1 h
  obtain ⟨es, hes, h⟩ := Except.bind_eq_ok.1 h
  obtain ⟨⟨found, flat⟩, hfound, h⟩ := Except.bind_eq_ok.1 h
  obtain ⟨filter, hfilter, h⟩ := Except.bind_eq_ok.1 h
  obtain ⟨selected, hselected, h⟩ := Except.bind_eq_ok.1 h
  have hembeds : (s.embedding name).all "embeds" = [name] :=
    Directives.all_embedding_reserved hname (by decide)
  rw [hembeds, List.flatMap_singleton, hname.entry, List.foldlM_cons] at hes
  obtain ⟨added, hadded, hes⟩ := Except.bind_eq_ok.1 hes
  cases hes
  obtain rfl := addEmbed_name hname hrel hadded
  rw [Directives.keys_embedding hname] at hfound
  obtain ⟨pieces, hpieces, hfound⟩ := readKeys_flatFilters hrel htarget hname (by rfl) hfound
  obtain ⟨sorts, hunsorted, hsorted, hfound⟩ := readKeys_sorts hname hrel htarget (by rfl) (by rfl) hfound
  have hfound := readKeys_limit hname hrel htarget (by rfl) (by rfl) hfound
  have hfound := readKeys_offset hname hrel htarget (by rfl) (by rfl) hfound
  cases hfound
  have hquery : (s.embedding name).all "query" = [] := Directives.all_embedding_reserved hname (by decide)
  have hfields : (s.embedding name).all "fields" = [] := Directives.all_embedding_reserved hname (by decide)
  have hsort : (s.embedding name).first? "sort" = none := Directives.first?_embedding_reserved hname (by decide)
  rw [hquery] at hfilter
  cases hfilter
  rw [hfields] at hselected
  cases hselected
  rw [hsort] at h
  cases h
  refine ⟨rfl, rfl, _, pieces, rfl, rfl, rfl, ⟨?_, hunsorted, hsorted⟩, rfl, rfl⟩
  exact hpieces.imp fun key f hf => (Directives.all_embedding_flatFilter hname key) ▸ hf

/-- Flat filters of a listing are collected. -/
theorem readKeys_listing (hflat : s.Flat) {keys : List String} (hkeys : ∀ key ∈ keys, key ∈ s.flatKeys)
    {pieces : List Filter}
    (hpieces : List.Forall₂ (fun key f => site.flatFilter target key (s.flatValues key) = .ok (some f)) keys pieces)
    (es : Embeds) : site.readKeys target s.listing keys es = .ok (es, pieces) := by
  induction hpieces with
  | nil => rfl
  | cons hpiece hpieces ih =>
    obtain ⟨hfree, hkey⟩ := hflat.of_mem_flatKeys (hkeys _ List.mem_cons_self)
    unfold readKeys
    rw [if_neg hfree, hkey]
    dsimp only [bind, Except.bind]
    rw [Directives.all_listing_of_notMem hfree, hpiece, ih fun key hkey => hkeys key (List.mem_cons_of_mem _ hkey)]
    rfl

/-- Without a page number, a window is what the offset and the limit say; the page ceiling stands for a
limit that is left out. -/
theorem window_of_ofParams {params : Params} {ceiling : Option UInt64} {window : Window}
    (hpage : params.first? "page" = none) (h : Window.ofParams params ceiling = .ok window) :
    window = ⟨((params.first? "offset").bind Window.natural?).getD 0,
      ((params.first? "limit").map Window.positive?).getD ceiling⟩ := by
  have hnumber : Window.positiveParameter params "page" = .ok none := by rw [Window.positiveParameter, hpage]
  obtain ⟨limit, hlimit, h⟩ := Except.bind_eq_ok.1 h
  have hsize : ((params.first? "limit").map Window.positive?).getD ceiling = limit.or ceiling := by
    unfold Window.positiveParameter at hlimit
    split at hlimit
    · rename_i hnone
      cases hlimit
      rw [hnone]
      rfl
    · rename_i raw hraw
      split at hlimit
      · rename_i n hn
        cases hlimit
        rw [hraw, Option.map_some, Option.getD_some, hn, Option.some_or]
      · cases hlimit
  rw [hsize]
  have hstart : ∀ start, params.first? "offset" = start →
      window = ⟨(start.bind Window.natural?).getD 0, limit.or ceiling⟩ := by
    intro start hstart
    simp only [hstart, hnumber] at h
    cases start with
    | none =>
      split at h
      · split at h
        · cases h
        · exact (Except.ok.inj h).symm
      · exact (Except.ok.inj h).symm
    | some raw =>
      cases hn : Window.natural? raw with
      | none =>
        simp only [hn] at h
        split at h
        · split at h <;> cases h
        · cases h
      | some n =>
        rw [Option.bind_some, hn]
        simp only [hn] at h
        split at h
        · split at h
          · cases h
          · exact (Except.ok.inj h).symm
        · exact (Except.ok.inj h).symm
  exact hstart _ rfl

/-- The window of a listing is that of the directives, if these say a limit or there is no page ceiling. -/
theorem window_of_listing (hflat : s.Flat) {ceiling : Option UInt64} {window : Window}
    (h : Window.ofParams s.listing ceiling = .ok window) (hceiling : s.limit = none → ceiling = none) :
    window = s.window := by
  have hlimit : s.listing.first? "limit" = s.limit := Directives.first?_listing_option hflat .limit (by simp)
  have hoffset : s.listing.first? "offset" = s.offset := Directives.first?_listing_option hflat .offset (by simp)
  have hpage := Params.first?_eq_none (Directives.key_ne_listing hflat (by simp : "page" ∈ _))
  rw [window_of_ofParams hpage h, hlimit, hoffset, Directives.window]
  cases hs : s.limit with
  | none => rw [hceiling hs]; rfl
  | some raw => rfl

/-- The directives for a listing are what the listing is of. -/
theorem read_listing (hflat : s.Flat) {pieces : List Filter} {sorts : List SortKey}
    (hasked : site.Says target s pieces sorts) (h : site.read target s.listing = .ok q) :
    q.embeds = .empty ∧ q.fields = [] ∧ q.sorts = sorts ∧ site.readFilter target pieces [] = .ok q.filter ∧
      ((s.limit = none → site.ceilingOf target = none) → q.window = s.window) := by
  obtain ⟨window, hwindow, h⟩ := Except.bind_eq_ok.1 h
  obtain ⟨es, hes, h⟩ := Except.bind_eq_ok.1 h
  obtain ⟨⟨found, flat⟩, hfound, h⟩ := Except.bind_eq_ok.1 h
  obtain ⟨filter, hfilter, h⟩ := Except.bind_eq_ok.1 h
  obtain ⟨selected, hselected, h⟩ := Except.bind_eq_ok.1 h
  have hnone (key : String) (hkey : key ∈ ["embeds", "fields", "page", "query"]) : s.listing.all key = [] :=
    Params.all_eq_nil (Directives.key_ne_listing hflat hkey)
  rw [hnone "embeds" (by simp)] at hes
  cases hes
  obtain ⟨more, hkeys, hmore⟩ := Directives.exists_keys_listing s
  rw [hkeys, readKeys_append_reserved hmore, readKeys_listing hflat (fun _ => id) hasked.pieces] at hfound
  cases hfound
  rw [hnone "query" (by simp)] at hfilter
  rw [hnone "fields" (by simp)] at hselected
  cases hselected
  have hsort : s.listing.first? "sort" = s.sort := Directives.first?_listing_option hflat .sorts (by simp)
  rw [hsort] at h
  have hwindow := window_of_listing hflat hwindow
  cases hs : s.sort with
  | none =>
    rw [hs] at h
    cases h
    exact ⟨rfl, rfl, (hasked.unsorted hs).symm, hfilter, hwindow⟩
  | some raw =>
    rw [hs] at h
    dsimp only at h
    rw [hasked.sorted raw hs] at h
    cases h
    exact ⟨rfl, rfl, rfl, hfilter, hwindow⟩

end QuerySite

end NestedResources
