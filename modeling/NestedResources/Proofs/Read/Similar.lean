import Mathlib.Data.List.Perm.Basic
import NestedResources.Proofs.Query.Reordered
import NestedResources.Proofs.Read.Windowed

/-!
# Similar queries answer the same

Queries that ask for the same, with filters that mean the same, compile alike, find the same rows and
render them the same (`Registry.exists_similar_collection`). Their fetches may be made in different
orders: of two that are not made one after the other for their depth, it does not matter which is first.
-/
namespace NestedResources

/-- Steps that are ordered by a number, so that those with the same number commute, lead to the same in
every such order. -/
theorem foldl_eq_of_perm {α β : Type} {f : β → α → β} {key : α → Nat} {items others : List α}
    (hperm : items.Perm others) (hitems : items.Pairwise fun x y => key x ≤ key y)
    (hothers : others.Pairwise fun x y => key x ≤ key y)
    (hcommute : ∀ x ∈ items, ∀ y ∈ items, key x = key y → ∀ b, f (f b x) y = f (f b y) x) (b : β) :
    items.foldl f b = others.foldl f b := by
  induction items generalizing others b with
  | nil => rw [List.nil_perm.1 hperm]
  | cons x items ih =>
    obtain ⟨before, after, rfl⟩ := List.append_of_mem (hperm.mem_iff.1 List.mem_cons_self)
    obtain ⟨hx, hitems⟩ := List.pairwise_cons.1 hitems
    have hrest : items.Perm (before ++ after) :=
      (List.perm_cons x).1 (hperm.trans List.perm_middle)
    obtain ⟨hbefore, -, hbetween⟩ := List.pairwise_append.1 hothers
    -- What stands before `x` in the other order has its number.
    have hsame : ∀ y ∈ before, y ∈ items ∧ key y = key x := fun y hy =>
      have hmem := hrest.mem_iff.2 (List.mem_append_left _ hy)
      ⟨hmem, Nat.le_antisymm (hbetween y hy x List.mem_cons_self) (hx y hmem)⟩
    have hmove : (before ++ [x]).foldl f b = (x :: before).foldl f b := by
      refine List.perm_append_comm.foldl_eq' (fun y hy z hz c => ?_) b
      have hall : ∀ y ∈ before ++ [x], y ∈ x :: items ∧ key y = key x := by
        rw [List.forall_mem_append, List.forall_mem_singleton]
        exact ⟨fun y hy => ⟨List.mem_cons_of_mem x (hsame y hy).1, (hsame y hy).2⟩,
          List.mem_cons_self, rfl⟩
      exact hcommute y (hall y hy).1 z (hall z hz).1 ((hall y hy).2.trans (hall z hz).2.symm) c
    have hafter := hothers.sublist ((List.sublist_cons_self x after).append_left before)
    rw [List.append_cons, List.foldl_append, hmove, List.foldl_cons, List.foldl_cons,
      ih hrest hitems hafter fun y hy z hz =>
        hcommute y (List.mem_cons_of_mem x hy) z (List.mem_cons_of_mem x hz),
      List.foldl_append]

/-! ## Similar embeds -/

namespace Embed.Similar

variable {e d : Embed}

theorem isScoped_eq (h : e.Similar d) : d.isScoped = e.isScoped := by rw [h.same]; rfl

theorem path_eq (h : e.Similar d) : d.path = e.path := by rw [h.same]

/-- Filters that mean the same show the same members. -/
theorem shown_eq (h : e.Similar d) (t : Tables) (schema : Schema) (sees : Resource → Record → Bool)
    (r : Resource) (record : Record) (rel : Relationship) (target : Resource) :
    d.shown t schema sees r record rel target = e.shown t schema sees r record rel target := by
  rw [h.same, Embed.shown, Embed.shown]
  simp only [h.filter.holds]

end Embed.Similar

namespace Embeds.Similar

variable {es fs : Embeds} {admits admits' : Embed → Prop}

/-- Similar embeds at every path. -/
theorem get? (h : es.Similar fs) (path : List String) :
    Option.Rel Embed.Similar (es.get? path) (fs.get? path) := by
  have hpaths := h.paths path
  have hoptions := h.options path
  rw [← isSome_get?_iff, ← isSome_get?_iff] at hpaths
  rw [optionsAt, optionsAt] at hoptions
  cases hes : es.get? path with
  | none =>
    cases hfs : fs.get? path with
    | none => exact .none
    | some d => simp [hes, hfs] at hpaths
  | some e =>
    cases hfs : fs.get? path with
    | none => simp [hes, hfs] at hpaths
    | some d =>
      rw [hes, hfs] at hoptions
      exact .some hoptions

theorem exists_mem (h : es.Similar fs) (hes : es.paths.Nodup) (hfs : fs.paths.Nodup) {d : Embed}
    (hd : d ∈ fs.list) : ∃ e ∈ es.list, e.Similar d := by
  obtain ⟨e, he, hpath⟩ := List.mem_map.1 ((h.paths d.path).2 (List.mem_map_of_mem hd))
  have hsame := h.options d.path
  rw [optionsAt_of_mem hfs hd, ← hpath, optionsAt_of_mem hes he] at hsame
  exact ⟨e, he, hsame⟩

/-- Similar embeds show the same, also those of them that are fetched along. -/
theorem agree_along (h : es.Similar fs) (hes : es.paths.Nodup) (hfs : fs.paths.Nodup) (t : Tables)
    (schema : Schema) (sees : Resource → Record → Bool) (root : Resource) (path : List String) :
    Agree t schema sees root path (Registry.along es) (Registry.along fs) := by
  intro start _ parent _ name
  rw [get?_only hes, get?_only hfs]
  have hfound := h.get? (start ++ [name])
  generalize es.get? (start ++ [name]) = found, fs.get? (start ++ [name]) = other at hfound
  cases hfound with
  | none => exact ⟨rfl, fun _ _ he => nomatch he⟩
  | @some e d hed =>
    rw [Option.filter_some, Option.filter_some, hed.isScoped_eq]
    split
    · refine ⟨rfl, fun _ _ he hd rel target _ record => ?_⟩
      cases he
      cases hd
      exact (hed.shown_eq t schema sees parent record rel target).symm
    · exact ⟨rfl, fun _ _ he => nomatch he⟩

theorem mem_topDown (h : es.Similar fs) (hes : es.paths.Nodup) (hfs : fs.paths.Nodup)
    {path : List String} (hpath : path ∈ es.topDown.map Embed.path) :
    path ∈ fs.topDown.map Embed.path := by
  obtain ⟨e, he, rfl⟩ := List.mem_map.1 hpath
  obtain ⟨hmem, hscoped⟩ := Embeds.mem_topDown.1 he
  obtain ⟨d, hd, hsame⟩ := h.symm.exists_mem hfs hes hmem
  have hfetched : d ∈ fs.topDown := Embeds.mem_topDown.2 ⟨hd, by rw [← hsame.isScoped_eq, hscoped]⟩
  exact List.mem_map.2 ⟨d, hfetched, hsame.path_eq.symm⟩

/-- The same paths take fetches of their own. -/
theorem topDown_perm (h : es.Similar fs) (hes : es.paths.Nodup) (hfs : fs.paths.Nodup) :
    (es.topDown.map Embed.path).Perm (fs.topDown.map Embed.path) := by
  have hsingle : ∀ {es : Embeds}, es.paths.Nodup → (es.topDown.map Embed.path).Nodup := fun hes =>
    ((Sorting.sort_perm _ _).map Embed.path).nodup_iff.2 (single_only hes Embed.isScoped)
  refine (List.perm_ext_iff_of_nodup (hsingle hes) (hsingle hfs)).2 fun path => ?_
  exact ⟨h.mem_topDown hes hfs, h.symm.mem_topDown hfs hes⟩

end Embeds.Similar

namespace Registry

variable {g : Registry} {ctx : Context} (t : Tables) {r root : Resource} {es fs : Embeds}
  {admits admits' : Embed → Prop}

/-- The fetches of similar embeds hand the same members to a row. -/
theorem membersAt_eq_of_similar (h : es.Similar fs) (hes : es.paths.Nodup) (hfs : fs.paths.Nodup)
    {e d : Embed} (hed : e.Similar d) (hne : e.path ≠ []) (record : Record) :
    g.membersAt ctx t fs root d record = g.membersAt ctx t es root e record := by
  unfold membersAt
  rw [hed.path_eq]
  refine congrArg (Option.getD · []) (Option.bind_congr fun parent hparent => ?_)
  refine Option.bind_congr fun step hstep => congrArg (Option.map · _) (funext fun i => ?_)
  obtain ⟨rel, target⟩ := step
  have htarget := Schema.at?_of_step? hne hparent hstep
  have hnested := Embeds.nested_congr (Embeds.single_only hfs _) (Embeds.single_only hes _) htarget
    (h.symm.agree_along hfs hes t g.schema (g.sees ctx t (fun _ _ => true) (requiredDepth + 1)) root e.path)
  unfold found
  cases t.rowAt? parent.name i.key with
  | none => rfl
  | some record =>
    dsimp only
    rw [hed.shown_eq, hed.path_eq, funext hnested]

/-- The fetches of similar embeds change rows alike. -/
theorem foldl_attachAt_of_similar (h : es.Similar fs) (hes : es.Sound admits) (hfs : fs.Sound admits')
    (row : Row) :
    fs.topDown.foldl (fun row d => row.attachAt d.path (g.membersAt ctx t fs root d)) row
      = es.topDown.foldl (fun row e => row.attachAt e.path (g.membersAt ctx t es root e)) row := by
  let step (row : Row) (path : List String) : Row :=
    row.attachAt path (g.membersAt ctx t es root (es.optionsAt path))
  have hleft : es.topDown.foldl (fun row e => row.attachAt e.path (g.membersAt ctx t es root e)) row
      = (es.topDown.map Embed.path).foldl step row := by
    rw [List.foldl_map]
    refine List.foldl_ext _ _ _ fun row e he => ?_
    dsimp only [step]
    rw [Embeds.optionsAt_of_mem hes.single (Embeds.mem_topDown.1 he).1]
  have hright : fs.topDown.foldl (fun row d => row.attachAt d.path (g.membersAt ctx t fs root d)) row
      = (fs.topDown.map Embed.path).foldl step row := by
    rw [List.foldl_map]
    refine List.foldl_ext _ _ _ fun row d hd => ?_
    have hmem := (Embeds.mem_topDown.1 hd).1
    have hsame := h.options d.path
    rw [Embeds.optionsAt_of_mem hfs.single hmem] at hsame
    exact congrArg (row.attachAt d.path) (funext (membersAt_eq_of_similar t h hes.single hfs.single hsame
      (hsame.path_eq ▸ hfs.path_ne_nil hmem)))
  have hsorted : ∀ es : Embeds, (es.topDown.map Embed.path).Pairwise fun a b => a.length ≤ b.length :=
    fun es => List.pairwise_map.2 es.pairwise_topDown
  rw [hleft, hright]
  refine (foldl_eq_of_perm (h.topDown_perm hes.single hfs.single) (hsorted es) (hsorted fs) ?_ row).symm
  intro path _ other _ hlength row
  by_cases hsame : path = other
  · rw [hsame]
  · exact Row.attachAt_comm hlength hsame _ _ row

/-! ## Compiling similar filters -/

end Registry

namespace Filter

variable {schema : Schema} {required : Resource → Except Error (Option Predicate)} {r : Resource}

mutual

/-- A filter compiles iff its comparisons do. -/
theorem exists_compileWith_iff : ∀ f : Filter, (∃ p, compileWith schema required r f = .ok p) ↔
    ∀ c ∈ f.leaves, ∃ p, compileWith schema required r (.compare c) = .ok p
  | .and children | .or children | .not children => by
    rw [leaves, ← exists_compileAll_iff children, compileWith]
    simp only [Except.map_eq_ok]
    exact ⟨fun ⟨_, ps, hps, _⟩ => ⟨ps, hps⟩, fun ⟨ps, hps⟩ => ⟨_, ps, hps, rfl⟩⟩
  | .compare c => by simp [leaves]

theorem exists_compileAll_iff : ∀ fs : List Filter, (∃ ps, compileAll schema required r fs = .ok ps) ↔
    ∀ c ∈ leavesAll fs, ∃ p, compileWith schema required r (.compare c) = .ok p
  | [] => by simp [leavesAll, compileAll]
  | f :: fs => by
    rw [leavesAll, List.forall_mem_append, ← exists_compileWith_iff f, ← exists_compileAll_iff fs,
      compileAll]
    constructor
    · rintro ⟨ps, h⟩
      obtain ⟨p, hp, h⟩ := Except.bind_eq_ok.1 h
      obtain ⟨rest, hrest, -⟩ := Except.bind_eq_ok.1 h
      exact ⟨⟨p, hp⟩, rest, hrest⟩
    · rintro ⟨⟨p, hp⟩, rest, hrest⟩
      exact ⟨_, Except.bind_eq_ok.2 ⟨p, hp, Except.bind_eq_ok.2 ⟨rest, hrest, rfl⟩⟩⟩

end

end Filter

namespace Registry

variable {g : Registry} {ctx : Context} {r : Resource} {f f' : Option Filter}

theorem exists_restricted_iff : (∃ p, g.restricted ctx r f = .ok p) ↔
    (∀ c ∈ Filter.leavesOf f, ∃ p, g.compile ctx r (.compare c) = .ok p) ∧
      ∃ p, g.required ctx r = .ok p := by
  cases f with
  | none =>
    constructor
    · rintro ⟨p, h⟩
      exact ⟨by simp [Filter.leavesOf], required_of_restricted h⟩
    · rintro ⟨-, p, hp⟩
      exact Except.exists_bind_eq_ok rfl (Except.exists_bind_eq_ok hp ⟨_, rfl⟩)
  | some f =>
    rw [show Filter.leavesOf (some f) = f.leaves from rfl]
    unfold compile
    rw [← Filter.exists_compileWith_iff f]
    constructor
    · rintro ⟨p, h⟩
      refine ⟨?_, required_of_restricted h⟩
      obtain ⟨_, hexplicit, -⟩ := Except.bind_eq_ok.1 h
      obtain ⟨p, hp, -⟩ := Except.map_eq_ok.1 hexplicit
      exact ⟨p, hp⟩
    · rintro ⟨⟨p, hp⟩, filter, hfilter⟩
      exact Except.exists_bind_eq_ok (Except.map_eq_ok.2 ⟨p, hp, rfl⟩)
        (Except.exists_bind_eq_ok hfilter ⟨_, rfl⟩)

theorem exists_restricted_of_similar (h : Filter.Similar f f')
    (hf : ∃ p, g.restricted ctx r f = .ok p) : ∃ p, g.restricted ctx r f' = .ok p := by
  rw [exists_restricted_iff] at hf ⊢
  exact ⟨fun c hc => hf.1 c (h.leaves.mem_iff.2 hc), hf.2⟩

theorem compiles_of_similar {e d : Embed} (hed : e.Similar d) (he : g.Compiles ctx r e) :
    g.Compiles ctx r d := by
  obtain ⟨parent, target, rel, p, cs, hparent, hstep, hp, hcs⟩ := he
  obtain ⟨p', hp'⟩ := exists_restricted_of_similar hed.filter ⟨p, hp⟩
  rw [hed.same]
  exact ⟨parent, target, rel, p', cs, hparent, hstep, hp', hcs⟩

end Registry

/-! ## Similar queries -/

namespace Query.Similar

variable {q p : Query}

theorem matching_eq (h : q.Similar p) (t : Tables) (schema : Schema) (sees : Resource → Record → Bool)
    (r : Resource) (scope : Option Predicate) :
    p.matching t schema sees r scope = q.matching t schema sees r scope := by
  unfold matching
  simp only [h.filter.holds]

theorem selected_eq (h : q.Similar p) (t : Tables) (schema : Schema) (sees : Resource → Record → Bool)
    (r : Resource) (scope : Option Predicate) :
    p.selected t schema sees r scope = q.selected t schema sees r scope := by
  rw [selected, selected, h.matching_eq, h.sorts, h.window]

end Query.Similar

/-- Similar embeds select the same. -/
theorem Selection.ofQuery_of_similar {es fs : Embeds} (hes : es.paths.Nodup) (hfs : fs.paths.Nodup)
    (h : es.Similar fs) (fields : List String) : ofQuery fields fs = ofQuery fields es := by
  refine ofQuery_congr hfs hes (fun path => ?_) fields
  have hfound := h.get? path
  generalize es.get? path = found, fs.get? path = other at hfound
  cases hfound with
  | none => rfl
  | some hed =>
    rw [hed.same]
    rfl

namespace Registry

variable {g : Registry} {ctx : Context} (t : Tables) {r : Resource} {q p : Query}
  {scope : Option Predicate} {reading : Reading} {admits admits' : Embed → Prop}

theorem exists_reading_of_similar (hqp : q.Similar p) {name : String}
    (hr : g.schema.resource? name = some r) (hes : q.embeds.Sound admits) (hfs : p.embeds.Sound admits')
    (h : g.reading ctx name q scope = .ok reading) :
    ∃ reading', g.reading ctx name p scope = .ok reading' := by
  obtain ⟨hfilter, hsorts, hembeds⟩ := (exists_reading_iff hr hes).1 ⟨reading, h⟩
  have hfilter' := exists_restricted_of_similar hqp.filter hfilter
  refine (exists_reading_iff hr hfs).2 ⟨hfilter', ?_, fun d hd => ?_⟩
  · rwa [hqp.sorts]
  · obtain ⟨e, he, hed⟩ := hqp.embeds.exists_mem hes.single hfs.single hd
    exact compiles_of_similar hed (hembeds e he)

/-- Similar queries find the same rows, whatever the tables are. -/
theorem rows_eq_of_similar {reading' : Reading} (hqp : q.Similar p)
    (hr : g.schema.resource? r.name = some r) (hes : q.embeds.Sound admits)
    (hfs : p.embeds.Sound admits') (h : g.ReadingOf ctx r q q.embeds scope reading)
    (h' : g.ReadingOf ctx r p p.embeds scope reading') :
    reading'.rows t g.schema = reading.rows t g.schema := by
  have hlt : requiredDepth < requiredDepth + 1 := by decide
  have hnested := Embeds.nested_congr (Embeds.single_only hfs.single _) (Embeds.single_only hes.single _)
    (show g.schema.at? r [] = some r from rfl)
    (hqp.embeds.symm.agree_along hfs.single hes.single t g.schema
      (g.sees ctx t (fun _ _ => true) (requiredDepth + 1)) r [])
  rw [Reading.rows, Reading.rows, fetch_eq t (fun _ _ => true) hlt hr h,
    fetch_eq t (fun _ _ => true) hlt hr h', hqp.selected_eq, funext hnested]
  refine (foldlM_run_eq_map t hr h'.fetches_eq _).trans
    (.trans ?_ (foldlM_run_eq_map t hr h.fetches_eq _).symm)
  exact congrArg (fun change => Except.ok (List.map change _))
    (funext (foldl_attachAt_of_similar t hqp.embeds hes hfs))

/-- Similar queries answer the same collection. -/
theorem exists_collection_of_similar (hqp : q.Similar p) (hr : g.schema.resource? r.name = some r)
    (hes : q.embeds.Sound admits) (hfs : p.embeds.Sound admits')
    (h : g.reading ctx r.name q scope = .ok reading) (style : RenderStyle) :
    ∃ reading', g.reading ctx r.name p scope = .ok reading' ∧
      reading'.collection t g.schema style = reading.collection t g.schema style := by
  have hlt : requiredDepth < requiredDepth + 1 := by decide
  obtain ⟨reading', h'⟩ := exists_reading_of_similar hqp hr hes hfs h
  have hof := readingOf_of_reading hr hes.validate h
  have hof' := readingOf_of_reading hr hfs.validate h'
  refine ⟨reading', h', ?_⟩
  have hcount : t.count g.schema r.name reading'.fetch.predicate
      = t.count g.schema r.name reading.fetch.predicate := by
    rw [Tables.count, Tables.count, Schema.require_eq_ok.2 hr]
    simp only [bind, Except.bind]
    rw [List.countP_eq_length_filter, List.countP_eq_length_filter,
      passes_predicate t (fun _ _ => true) hlt hr hof, passes_predicate t (fun _ _ => true) hlt hr hof',
      hqp.matching_eq]
  rw [Reading.collection, Reading.collection, rows_eq_of_similar t hqp hr hes hfs hof hof', hof.resource_eq,
    hof'.resource_eq, hcount, hof.selection_eq, hof'.selection_eq, hof.window_eq, hof'.window_eq, hqp.fields,
    hqp.window, Selection.ofQuery_of_similar hes.single hfs.single hqp.embeds]

end Registry

end NestedResources
