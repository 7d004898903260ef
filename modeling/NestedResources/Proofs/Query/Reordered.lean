import Mathlib.Data.List.Perm.Basic
import NestedResources.Proofs.Query.Directives
import NestedResources.Proofs.Query.NodeCount
import NestedResources.Proofs.Query.Pages
import NestedResources.Proofs.Query.Resolved

/-!
# Parameters in another order

Parameters with distinct keys may stand in any order. What the keys of one embed set is joined in their
order, and embeds are added in that order too, so that another order reads another query; but it embeds
the same paths with the same options, and its filters have the same comparisons and the same meaning
(`QuerySite.read_of_perm`).
-/
namespace NestedResources

/-- Steps that commute up to a relation which every step keeps may be made in any order. -/
theorem foldl_perm {α β : Type} {f : β → α → β} {R : β → β → Prop}
    (htrans : ∀ {a b c}, R a b → R b c → R a c) (hsymm : ∀ {a b}, R a b → R b a)
    {items others : List α} (hperm : items.Perm others)
    (hstep : ∀ x ∈ items, ∀ {b c}, R b c → R (f b x) (f c x))
    (hcommute : items.Pairwise fun x y => ∀ b, R (f (f b x) y) (f (f b y) x)) {b c : β} (hbc : R b c) :
    R (items.foldl f b) (others.foldl f c) := by
  have hrun : ∀ items : List α, (∀ x ∈ items, ∀ {b c}, R b c → R (f b x) (f c x)) →
      ∀ {b c}, R b c → R (items.foldl f b) (items.foldl f c) := by
    intro items
    induction items with
    | nil => exact fun _ _ _ h => h
    | cons x items ih =>
      exact fun hstep _ _ h => ih (fun y hy => hstep y (List.mem_cons_of_mem x hy))
        (hstep x List.mem_cons_self h)
  induction hperm generalizing b c with
  | nil => exact hbc
  | cons x _ ih =>
    exact ih (fun y hy => hstep y (List.mem_cons_of_mem x hy)) (List.pairwise_cons.1 hcommute).2
      (hstep x List.mem_cons_self hbc)
  | swap x y items =>
    have hyx := (List.pairwise_cons.1 hcommute).1 x List.mem_cons_self
    have hboth := hstep y List.mem_cons_self (hstep x (by simp) hbc)
    exact hrun items (fun z hz => hstep z (by simp [hz])) (htrans (hyx b) hboth)
  | trans hfirst _ ihfirst ihsecond =>
    have hmiddle := hfirst.pairwise hcommute fun h b => hsymm (h b)
    exact htrans (ihfirst hstep hcommute hbc)
      (ihsecond (fun x hx => hstep x (hfirst.mem_iff.2 hx)) hmiddle (htrans (hsymm hbc) hbc))

/-! ## Filters that mean the same -/

namespace Filter

/-- The same comparisons and the same meaning. -/
structure Similar (f g : Option Filter) : Prop where
  leaves : (leavesOf f).Perm (leavesOf g)
  holds : ∀ t schema sees r record,
    f.all (Filter.holds t schema sees r record) = g.all (Filter.holds t schema sees r record)

namespace Similar

variable {f g k : Option Filter}

theorem refl (f : Option Filter) : Similar f f := ⟨.refl _, fun _ _ _ _ _ => rfl⟩

theorem symm (h : Similar f g) : Similar g f :=
  ⟨h.leaves.symm, fun t schema sees r record => (h.holds t schema sees r record).symm⟩

theorem trans (h : Similar f g) (h' : Similar g k) : Similar f k :=
  ⟨h.leaves.trans h'.leaves, fun t schema sees r record =>
    (h.holds t schema sees r record).trans (h'.holds t schema sees r record)⟩

theorem conjoin (h : Similar f g) (piece : Filter) :
    Similar (Filter.conjoin f (some piece)) (Filter.conjoin g (some piece)) where
  leaves := by
    rw [leavesOf_conjoin, leavesOf_conjoin]
    exact h.leaves.append_right _
  holds t schema sees r record := by
    rw [all_holds_conjoin, all_holds_conjoin, h.holds]

theorem conjoin_comm (f : Option Filter) (piece other : Filter) :
    Similar (Filter.conjoin (Filter.conjoin f (some piece)) (some other))
      (Filter.conjoin (Filter.conjoin f (some other)) (some piece)) where
  leaves := by
    simp only [leavesOf_conjoin, List.append_assoc]
    exact List.perm_append_comm.append_left _
  holds t schema sees r record := by
    simp only [all_holds_conjoin, Bool.and_assoc, Bool.and_comm (piece.holds t schema sees r record)]

end Similar

/-- What the flat filters are joined to. -/
def joined : List Filter → Option Filter
  | [] => none
  | [only] => some only
  | several => some (and several)

/-- The same filter, or a conjunction of the same parts in another order. -/
inductive Reordered : Option Filter → Option Filter → Prop
  | refl (f : Option Filter) : Reordered f f
  | parts {fs gs : List Filter} (h : fs.Perm gs) : Reordered (some (and fs)) (some (and gs))

namespace Reordered

variable {f g : Option Filter}

theorem conjoin (h : Reordered f g) (piece : Filter) :
    Reordered (Filter.conjoin f (some piece)) (Filter.conjoin g (some piece)) := by
  cases h with
  | refl => exact .refl _
  | parts h => cases piece <;> exact .parts (h.append_right _)

theorem joined {fs gs : List Filter} (h : fs.Perm gs) : Reordered (joined fs) (joined gs) := by
  match fs, gs, h with
  | [], gs, h =>
    obtain rfl := List.nil_perm.1 h
    exact .refl _
  | [only], gs, h =>
    obtain rfl := List.singleton_perm.1 h
    exact .refl _
  | first :: second :: rest, gs, h =>
    match gs, h, h.length_eq with
    | _ :: _ :: _, h, _ => exact .parts h

theorem nodesOf_eq (h : Reordered f g) : nodesOf f = nodesOf g := by
  cases h with
  | refl => rfl
  | parts h =>
    refine congrArg (· + 1) ?_
    induction h with
    | nil => rfl
    | cons _ _ ih => simp only [nodeCountAll, ih]
    | swap => simp only [nodeCountAll, Nat.add_left_comm]
    | trans _ _ ih ih' => exact ih.trans ih'

theorem similar (h : Reordered f g) : Similar f g := by
  cases h with
  | refl => exact .refl _
  | @parts fs gs h =>
    have hleaves : ∀ fs : List Filter, leavesAll fs = fs.flatMap leaves := by
      intro fs
      induction fs with
      | nil => rfl
      | cons f fs ih => rw [leavesAll, ih, List.flatMap_cons]
    refine ⟨?_, fun t schema sees r record => ?_⟩
    · change (leavesAll fs).Perm (leavesAll gs)
      rw [hleaves, hleaves]
      exact h.flatMap_right leaves
    · simp only [Option.all_some, Filter.holds, holdsAll_eq_all, h.all_eq]

end Reordered

end Filter

/-! ## Embeds with the same options -/

/-- Two embeds that differ in their filters at most, which are similar. -/
structure Embed.Similar (e d : Embed) : Prop where
  same : d = { e with filter := d.filter }
  filter : Filter.Similar e.filter d.filter

namespace Embed.Similar

variable {e d c : Embed}

theorem refl (e : Embed) : e.Similar e := ⟨rfl, .refl _⟩

theorem symm (h : e.Similar d) : d.Similar e := by
  refine ⟨?_, h.filter.symm⟩
  rw [h.same]

theorem trans (h : e.Similar d) (h' : d.Similar c) : e.Similar c := by
  refine ⟨?_, h.filter.trans h'.filter⟩
  rw [h'.same, h.same]

end Embed.Similar

namespace EmbedOption

/-- What options do to their embeds. -/
inductive Changes : EmbedOption → (Embed → Embed) → Prop
  | filter {option : EmbedOption} (his : option.isFilter = true) (f : Filter) :
    Changes option fun e => { e with filter := Filter.conjoin e.filter (some f) }
  | limit (n : UInt64) : Changes limit fun e => { e with window := { e.window with limit := some n } }
  | offset (n : UInt64) : Changes offset fun e => { e with window := { e.window with offset := n } }
  | sorts (keys : List SortKey) : Changes sorts fun e => { e with sorts := keys }

namespace Changes

variable {option other : EmbedOption} {change otherChange : Embed → Embed}

theorem path_eq (h : option.Changes change) (e : Embed) : (change e).path = e.path := by
  cases h <;> rfl

theorem similar (h : option.Changes change) {e d : Embed} (hed : e.Similar d) :
    (change e).Similar (change d) := by
  cases h with
  | filter _ f => exact ⟨by rw [hed.same], hed.filter.conjoin f⟩
  | limit | offset | sorts => exact ⟨by rw [hed.same], hed.filter⟩

/-- Filters may be joined in any order, and options of two kinds change different parts of an embed. -/
theorem commute (h : option.Changes change) (h' : other.Changes otherChange)
    (hne : option = other → option.isFilter = true) (e : Embed) :
    (otherChange (change e)).Similar (change (otherChange e)) := by
  cases h with
  | filter _ f =>
    cases h' with
    | filter _ g => exact ⟨rfl, Filter.Similar.conjoin_comm e.filter f g⟩
    | limit | offset | sorts => exact .refl _
  | limit =>
    cases h' with
    | limit => exact absurd (hne rfl) Bool.false_ne_true
    | filter | offset | sorts => exact .refl _
  | offset =>
    cases h' with
    | offset => exact absurd (hne rfl) Bool.false_ne_true
    | filter | limit | sorts => exact .refl _
  | sorts =>
    cases h' with
    | sorts => exact absurd (hne rfl) Bool.false_ne_true
    | filter | limit | offset => exact .refl _

end Changes

end EmbedOption

namespace Embeds

/-- The same paths, with similar embeds. -/
structure Similar (es fs : Embeds) : Prop where
  paths : ∀ path, path ∈ es.paths ↔ path ∈ fs.paths
  options : ∀ path, (es.optionsAt path).Similar (fs.optionsAt path)

theorem mem_paths_ensure {es : Embeds} {path other : List String} :
    other ∈ (es.ensure path).paths ↔ other ∈ parents path ++ [path] ∨ other ∈ es.paths := by
  unfold ensure
  generalize parents path ++ [path] = steps
  induction steps generalizing es with
  | nil => simp
  | cons start steps ih =>
    rw [List.foldl_cons, ih, mem_paths_imply, List.mem_cons]
    tauto

namespace Similar

variable {es fs ds : Embeds} {path : List String} {change otherChange : Embed → Embed}

theorem refl (es : Embeds) : es.Similar es := ⟨fun _ => Iff.rfl, fun _ => .refl _⟩

theorem symm (h : es.Similar fs) : fs.Similar es :=
  ⟨fun path => (h.paths path).symm, fun path => (h.options path).symm⟩

theorem trans (h : es.Similar fs) (h' : fs.Similar ds) : es.Similar ds :=
  ⟨fun path => (h.paths path).trans (h'.paths path), fun path => (h.options path).trans (h'.options path)⟩

theorem ensure (h : es.Similar fs) (path : List String) : (es.ensure path).Similar (fs.ensure path) := by
  refine ⟨fun other => ?_, fun other => ?_⟩
  · rw [mem_paths_ensure, mem_paths_ensure, h.paths]
  · rw [optionsAt_ensure, optionsAt_ensure]
    exact h.options other

/-- The embed of a path may be changed in both. -/
theorem modify (h : es.Similar fs) (hmem : path ∈ es.paths) (hpath : ∀ e, (change e).path = e.path)
    (hchange : ∀ {e d : Embed}, e.Similar d → (change e).Similar (change d)) :
    (es.modify path change).Similar (fs.modify path change) := by
  refine ⟨fun other => ?_, fun other => ?_⟩
  · rw [paths_modify hpath, paths_modify hpath]
    exact h.paths other
  · rw [optionsAt_modify hpath (isSome_get?_iff.2 hmem),
      optionsAt_modify hpath (isSome_get?_iff.2 ((h.paths path).1 hmem))]
    split
    · exact hchange (h.options path)
    · exact h.options other

end Similar

/-- Changes of two embeds, or two changes of one embed that commute, may be made in any order. -/
theorem similar_set_set {change otherChange : Embed → Embed} (hpath : ∀ e, (change e).path = e.path)
    (hother : ∀ e, (otherChange e).path = e.path) {path other : List String}
    (hcommute : path = other → ∀ e, (otherChange (change e)).Similar (change (otherChange e)))
    (es : Embeds) :
    Similar ((((es.ensure path).modify path change).ensure other).modify other otherChange)
      ((((es.ensure other).modify other otherChange).ensure path).modify path change) := by
  refine ⟨fun start => ?_, fun start => ?_⟩
  · simp only [paths_modify hpath, paths_modify hother, mem_paths_ensure]
    tauto
  · simp only [optionsAt_set hpath, optionsAt_set hother]
    by_cases heq : path = other
    · subst heq
      by_cases hstart : start = path
      · simpa [hstart] using hcommute rfl (es.optionsAt path)
      · simpa [hstart] using .refl _
    · by_cases hstart : start = path
      · subst hstart
        simpa [heq] using .refl _
      · simpa [hstart, Ne.symm heq] using .refl _

end Embeds

/-! ## What a key is read as -/

/-- A change of the embed of a path, or filters of the root. -/
inductive KeyEffect where
  | setting (path : List String) (change : Embed → Embed)
  | flat (filters : List Filter)

namespace KeyEffect

instance : Inhabited KeyEffect := ⟨flat []⟩

def apply (es : Embeds) : KeyEffect → Embeds
  | setting path change => (es.ensure path).modify path change
  | flat _ => es

def filters : KeyEffect → List Filter
  | setting _ _ => []
  | flat filters => filters

end KeyEffect

namespace EmbedOption

/-- The marker of an option that is no filter. -/
def marker : EmbedOption → String
  | limit => "_limit_"
  | offset => "_offset_"
  | _ => "_sorts_"

/-- What stands behind the longest beginning that passes a test. -/
theorem eq_takeWhile_append {p : String → Bool} {words rest : List String} {word : String}
    (h : words.drop (words.takeWhile p).length = word :: rest) :
    words = words.takeWhile p ++ word :: rest ∧ p word = false := by
  induction words with
  | nil => cases h
  | cons first words ih =>
    by_cases hfirst : p first = true
    · rw [List.takeWhile_cons_of_pos hfirst] at h ⊢
      obtain ⟨hwords, hword⟩ := ih h
      exact ⟨congrArg (first :: ·) hwords, hword⟩
    · rw [List.takeWhile_cons_of_neg hfirst] at h ⊢
      obtain ⟨rfl, rfl⟩ := List.cons.inj h
      exact ⟨rfl, by simpa using hfirst⟩

theorem ofMarker_eq_ok {key mark : String} {rest : List String} {option : EmbedOption}
    (h : ofMarker key mark rest = .ok option) (hno : option.isFilter = false) (hmark : mark ∈ markers) :
    mark = option.marker ∧ rest = [] := by
  unfold ofMarker at h
  split at h
  · cases h
    split at hno <;> cases hno
  · rename_i hother
    split at h
    · cases h
    · rename_i hlast
      refine ⟨?_, not_not.1 hlast⟩
      cases h
      have hmarkers : mark = "_limit_" ∨ mark = "_offset_" ∨ mark = "_sorts_" := by
        simp only [markers, List.mem_cons, List.not_mem_nil, or_false] at hmark
        tauto
      rcases hmarkers with rfl | rfl | rfl <;> simp [marker]

/-- The key of an option that is no filter is its path and its marker. -/
theorem fields_of_ofKey? {key : String} {path : List String} {option : EmbedOption}
    (h : ofKey? key = .ok (some (path, option))) (hno : option.isFilter = false) :
    Text.fields '.' key = path ++ [option.marker] := by
  unfold ofKey? at h
  dsimp only at h
  split at h
  · cases h
  · rename_i mark rest hrest
    obtain ⟨hfields, hmark⟩ := eq_takeWhile_append hrest
    split at h
    · cases h
    · obtain ⟨found, hfound, hpath⟩ := Except.map_eq_ok.1 h
      cases hpath
      obtain ⟨rfl, rfl⟩ := ofMarker_eq_ok hfound hno (by simpa using hmark)
      exact hfields

theorem eq_of_ofKey? {key other : String} {path : List String} {option : EmbedOption}
    (h : ofKey? key = .ok (some (path, option))) (h' : ofKey? other = .ok (some (path, option)))
    (hno : option.isFilter = false) : key = other := by
  rw [← Text.join_fields '.' key, fields_of_ofKey? h hno, ← fields_of_ofKey? h' hno, Text.join_fields]

end EmbedOption

namespace QuerySite

variable {site : QuerySite} {r : Resource} {params : Params}

/-- What an option does to the embed of a path. -/
def changeOf (site : QuerySite) (r : Resource) (key : String) (path values : List String)
    (option : EmbedOption) : Except Error (Embed → Embed) := do
  let (hops, target) ← site.schema.cross key r path
  match hops.getLast? with
  | none => throw (.malformedQuery key .noRelationship)
  | some hop => site.readOption hop.relationship target key path values option

theorem setOption_eq (es : Embeds) (key : String) (path values : List String) (option : EmbedOption) :
    site.setOption r es key path values option
      = (site.changeOf r key path values option).map fun change =>
        (es.ensure path).modify path change := by
  unfold setOption changeOf
  cases site.schema.cross key r path with
  | error e => rfl
  | ok crossed =>
    obtain ⟨hops, target⟩ := crossed
    simp only [bind, Except.bind]
    cases hops.getLast? with
    | none => rfl
    | some hop => cases site.readOption hop.relationship target key path values option <;> rfl

/-- What a key is read as, whatever is embedded before. -/
def readKey (site : QuerySite) (r : Resource) (params : Params) (key : String) :
    Except Error KeyEffect :=
  if key ∈ Query.reserved then .ok (.flat [])
  else do
    match ← EmbedOption.ofKey? key with
    | some (path, option) =>
      (site.changeOf r key path (params.all key) option).map (.setting path)
    | none => (site.flatFilter r key (params.all key)).map fun filter => .flat filter.toList

/-- The keys are read one by one, and then take effect. -/
theorem readKeys_eq (keys : List String) (es : Embeds) :
    site.readKeys r params keys es = (keys.mapM (site.readKey r params)).map fun effects =>
      (effects.foldl KeyEffect.apply es, effects.flatMap KeyEffect.filters) := by
  induction keys generalizing es with
  | nil => rfl
  | cons key keys ih =>
    rw [readKeys, List.mapM_cons, readKey]
    split
    · rw [ih]
      cases keys.mapM (site.readKey r params) <;> rfl
    · cases EmbedOption.ofKey? key with
      | error e => rfl
      | ok read =>
        cases read with
        | none =>
          simp only [bind, Except.bind, ih]
          cases site.flatFilter r key (params.all key) with
          | error e => rfl
          | ok filter => cases keys.mapM (site.readKey r params) <;> rfl
        | some o =>
          simp only [bind, Except.bind, ih, setOption_eq]
          cases site.changeOf r key o.1 (params.all key) o.2 with
          | error e => rfl
          | ok change => cases keys.mapM (site.readKey r params) <;> rfl

theorem changes_of_readOption {rel : Relationship} {target : Resource} {key : String}
    {path values : List String} {option : EmbedOption} {change : Embed → Embed}
    (h : site.readOption rel target key path values option = .ok change) : option.Changes change := by
  have hspec := readOption_eq_ok h
  cases option with
  | structuredFilter =>
    obtain ⟨f, rfl⟩ := hspec
    exact .filter rfl f
  | flatFilter =>
    obtain ⟨f, -, rfl⟩ := hspec
    exact .filter rfl f
  | limit =>
    obtain ⟨-, n, -, -, rfl⟩ := hspec
    exact .limit n
  | offset =>
    obtain ⟨-, n, -, -, rfl⟩ := hspec
    exact .offset n
  | sorts =>
    obtain ⟨-, sorts, -, -, rfl⟩ := hspec
    exact .sorts sorts

theorem changes_of_readKey {key : String} {path : List String} {change : Embed → Embed}
    (h : site.readKey r params key = .ok (.setting path change)) :
    ∃ option, EmbedOption.ofKey? key = .ok (some (path, option)) ∧ option.Changes change := by
  unfold readKey at h
  split at h
  · cases h
  · obtain ⟨read, hread, h⟩ := Except.bind_eq_ok.1 h
    cases read with
    | none =>
      obtain ⟨_, -, h⟩ := Except.map_eq_ok.1 h
      cases h
    | some o =>
      obtain ⟨change, hchange, h⟩ := Except.map_eq_ok.1 h
      cases h
      obtain ⟨⟨hops, target⟩, -, hchange⟩ := Except.bind_eq_ok.1 hchange
      refine ⟨o.2, hread, ?_⟩
      cases hlast : hops.getLast? with
      | none =>
        simp only [hlast] at hchange
        cases hchange
      | some hop =>
        simp only [hlast] at hchange
        exact changes_of_readOption hchange

/-- What a key is read as keeps embeds similar. -/
theorem similar_apply {key : String} {effect : KeyEffect} (h : site.readKey r params key = .ok effect)
    {es fs : Embeds} (hes : es.Similar fs) : (effect.apply es).Similar (effect.apply fs) := by
  cases effect with
  | flat => exact hes
  | setting path change =>
    obtain ⟨option, -, hchange⟩ := changes_of_readKey h
    refine (hes.ensure path).modify (Embeds.mem_paths_ensure.2 (.inl ?_)) hchange.path_eq hchange.similar
    exact List.mem_append_right _ (List.mem_singleton.2 rfl)

/-- What two keys are read as may take effect in any order. -/
theorem similar_apply_apply {key other : String} {effect otherEffect : KeyEffect} (hne : key ≠ other)
    (h : site.readKey r params key = .ok effect) (h' : site.readKey r params other = .ok otherEffect)
    (es : Embeds) :
    (otherEffect.apply (effect.apply es)).Similar (effect.apply (otherEffect.apply es)) := by
  cases effect with
  | flat => exact .refl _
  | setting path change =>
    cases otherEffect with
    | flat => exact .refl _
    | setting otherPath otherChange =>
      obtain ⟨option, hkey, hchange⟩ := changes_of_readKey h
      obtain ⟨otherOption, hother, hotherChange⟩ := changes_of_readKey h'
      refine Embeds.similar_set_set hchange.path_eq hotherChange.path_eq (fun hpath => ?_) es
      subst hpath
      refine hchange.commute hotherChange fun hsame => ?_
      subst hsame
      by_contra hno
      exact hne (EmbedOption.eq_of_ofKey? hkey hother (by simpa using hno))

/-- Keys in another order embed the same, and bring the same filters. -/
theorem readKeys_of_perm {keys others : List String} (hperm : keys.Perm others) (hkeys : keys.Nodup)
    {es found : Embeds} {filters : List Filter}
    (h : site.readKeys r params keys es = .ok (found, filters)) :
    ∃ found' filters', site.readKeys r params others es = .ok (found', filters') ∧
      found.Similar found' ∧ filters.Perm filters' := by
  rw [readKeys_eq] at h
  obtain ⟨effects, heffects, h⟩ := Except.map_eq_ok.1 h
  cases h
  obtain ⟨effect, rfl, heffect⟩ := Except.exists_map_of_mapM heffects
  have hothers : others.mapM (site.readKey r params) = .ok (others.map effect) :=
    Except.mapM_of_forall fun key hkey => heffect key (hperm.mem_iff.2 hkey)
  refine ⟨_, _, by rw [readKeys_eq, hothers]; rfl, ?_, (hperm.map effect).flatMap_right _⟩
  rw [List.foldl_map, List.foldl_map]
  refine foldl_perm (R := Embeds.Similar) Embeds.Similar.trans Embeds.Similar.symm hperm
    (fun key hkey => similar_apply (heffect key hkey)) ?_ (.refl es)
  exact hkeys.imp_of_mem fun ha hb hne =>
    similar_apply_apply hne (heffect _ ha) (heffect _ hb)

/-! ## The rest of the query -/

/-- The same filters in another order have the same nodes and mean the same. -/
theorem readFilter_of_perm {flat others : List Filter} (hperm : flat.Perm others) {raws : List String}
    {f : Option Filter} (h : site.readFilter r flat raws = .ok f) :
    ∃ g, site.readFilter r others raws = .ok g ∧ Filter.Similar f g := by
  obtain ⟨joined, hjoined, h⟩ := Except.bind_eq_ok.1 h
  let join (filter : Option Filter) (raw : String) : Except Error (Option Filter) := do
    pure (Filter.conjoin filter (some (← site.structuredFilter r "query" raw)))
  have hstep : ∀ f g raw next, Filter.Reordered f g → join f raw = .ok next →
      ∃ other, join g raw = .ok other ∧ Filter.Reordered next other := by
    intro f g raw next hfg hnext
    obtain ⟨piece, hpiece, hnext⟩ := Except.bind_eq_ok.1 hnext
    cases hnext
    exact ⟨_, Except.bind_eq_ok.2 ⟨piece, hpiece, rfl⟩, hfg.conjoin piece⟩
  obtain ⟨other, hother, hsame⟩ := Except.exists_foldlM_related hstep (.joined hperm) hjoined
  refine ⟨other, Except.bind_eq_ok.2 ⟨other, hother, ?_⟩, ?_⟩
  · have hnodes := hsame.nodesOf_eq
    rw [Filter.nodesOf, Filter.nodesOf] at hnodes
    rw [← hnodes]
    split at h
    · cases h
    · rename_i hle
      rw [if_neg hle]
      rfl
  · split at h
    · cases h
    · cases h
      exact hsame.similar

end QuerySite

/-- Queries that ask for the same, with filters that mean the same. -/
structure Query.Similar (q p : Query) : Prop where
  filter : Filter.Similar q.filter p.filter
  fields : p.fields = q.fields
  embeds : q.embeds.Similar p.embeds
  sorts : p.sorts = q.sorts
  window : p.window = q.window

namespace QuerySite

variable {site : QuerySite} {r : Resource} {params : Params}

/-- Selecting a field does not depend on filters. -/
theorem addField_of_similar {q p changed : Query} {entry : String} (hqp : q.Similar p)
    (h : site.addField r q entry = .ok changed) :
    ∃ other, site.addField r p entry = .ok other ∧ changed.Similar other := by
  obtain ⟨hops, target, f, hcross, hembedded, hf, hreadable, rfl⟩ := addField_eq_ok.1 h
  refine ⟨_, addField_eq_ok.2 ⟨hops, target, f, hcross, ?_, hf, hreadable, rfl⟩, ?_⟩
  · rwa [← hqp.embeds.paths]
  · unfold Query.select
    split
    · exact ⟨hqp.filter, by rw [hqp.fields], hqp.embeds, hqp.sorts, hqp.window⟩
    · rename_i hpath
      refine ⟨hqp.filter, hqp.fields, ?_, hqp.sorts, hqp.window⟩
      refine hqp.embeds.modify (hembedded.resolve_left hpath) (fun _ => rfl) fun hed => ?_
      exact ⟨by rw [hed.same], hed.filter⟩

end QuerySite

/-! ## Parameters -/

namespace Params

variable {params others : Params}

theorem keys_of_nodup (h : (params.pairs.map (·.1)).Nodup) : params.keys = params.pairs.map (·.1) := by
  have hkeys := @keys_append_of_new .empty params.pairs (fun pair _ => List.not_mem_nil) h
  rwa [append, empty, List.nil_append] at hkeys

theorem first?_of_perm (h : (params.pairs.map (·.1)).Nodup) (hperm : params.pairs.Perm others.pairs)
    (key : String) : others.first? key = params.first? key := by
  have hothers := (hperm.map (·.1)).nodup_iff.1 h
  refine congrArg (Option.map _) (Option.ext fun pair => ?_)
  rw [List.find?_key_eq_some_iff hothers, List.find?_key_eq_some_iff h, hperm.mem_iff]

/-- A key that stands once has one value. -/
theorem all_of_nodup (h : (params.pairs.map (·.1)).Nodup) (key : String) :
    params.all key = (params.first? key).toList := by
  obtain ⟨pairs⟩ := params
  induction pairs with
  | nil => rfl
  | cons pair pairs ih =>
    obtain ⟨hnew, hrest⟩ := List.nodup_cons.1 h
    by_cases hkey : pair.1 = key
    · subst hkey
      have hnone : all ⟨pairs⟩ pair.1 = [] := all_eq_nil hnew
      rw [all] at hnone
      simp [all, first?, hnone]
    · have hsame := ih hrest
      rw [all, first?] at hsame
      simpa [all, first?, hkey] using hsame

theorem all_of_perm (h : (params.pairs.map (·.1)).Nodup) (hperm : params.pairs.Perm others.pairs)
    (key : String) : others.all key = params.all key := by
  rw [all_of_nodup h, all_of_nodup ((hperm.map (·.1)).nodup_iff.1 h), first?_of_perm h hperm]

end Params

theorem Window.ofParams_congr {params others : Params} (h : ∀ key, others.first? key = params.first? key)
    (ceiling : Option UInt64) : ofParams others ceiling = ofParams params ceiling := by
  simp only [ofParams, positiveParameter, h]

namespace QuerySite

variable {site : QuerySite} {r : Resource} {params others : Params}

/-- Parameters with distinct keys are read as a similar query in any order. -/
theorem read_of_perm {q : Query} (hkeys : (params.pairs.map (·.1)).Nodup)
    (hperm : params.pairs.Perm others.pairs) (h : site.read r params = .ok q) :
    ∃ p, site.read r others = .ok p ∧ q.Similar p := by
  have hall := Params.all_of_perm hkeys hperm
  have hfirst := Params.first?_of_perm hkeys hperm
  have hothers := (hperm.map (·.1)).nodup_iff.1 hkeys
  obtain ⟨window, hwindow, h⟩ := Except.bind_eq_ok.1 h
  obtain ⟨es, hes, h⟩ := Except.bind_eq_ok.1 h
  obtain ⟨⟨found, flat⟩, hfound, h⟩ := Except.bind_eq_ok.1 h
  obtain ⟨filter, hfilter, h⟩ := Except.bind_eq_ok.1 h
  obtain ⟨selected, hselected, h⟩ := Except.bind_eq_ok.1 h
  rw [Params.keys_of_nodup hkeys] at hfound
  obtain ⟨found', flat', hfound', hembeds, hflat⟩ := readKeys_of_perm (hperm.map (·.1)) hkeys hfound
  obtain ⟨filter', hfilter', hsimilar⟩ := readFilter_of_perm hflat hfilter
  have hstart : Query.Similar { filter, embeds := found, window }
      { filter := filter', embeds := found', window } := ⟨hsimilar, rfl, hembeds, rfl, rfl⟩
  obtain ⟨selected', hselected', hsame⟩ := Except.exists_foldlM_related (g := site.addField r)
    (fun _ _ _ _ => addField_of_similar) hstart hselected
  have hkeys' : site.readKeys r others others.keys es = .ok (found', flat') := by
    rw [Params.keys_of_nodup hothers, ← hfound']
    exact readKeys_congr (fun key _ => hall key) _ _
  unfold read
  rw [Window.ofParams_congr hfirst, Except.bind_of_ok hwindow, hall, Except.bind_of_ok hes,
    Except.bind_of_ok hkeys']
  dsimp only
  rw [hall, Except.bind_of_ok hfilter', hall, Except.bind_of_ok hselected', hfirst]
  cases hsort : params.first? "sort" with
  | none =>
    rw [hsort] at h
    cases h
    exact ⟨selected', rfl, hsame⟩
  | some raw =>
    rw [hsort] at h
    obtain ⟨sorts, hsorts, h⟩ := Except.bind_eq_ok.1 h
    cases h
    refine ⟨{ selected' with sorts }, Except.bind_eq_ok.2 ⟨sorts, hsorts, rfl⟩, ?_⟩
    exact ⟨hsame.filter, hsame.fields, hsame.embeds, rfl, hsame.window⟩

end QuerySite

end NestedResources
