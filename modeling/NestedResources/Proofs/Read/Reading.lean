import Mathlib.Data.List.Induction
import NestedResources.Proofs.Read.Scoped

/-!
# Readings embed by recursion

A query compiles if its own filter and sorts do and those of every embed, in whatever order they are
compiled. Running the reading gives the rows at the root with everything that is embedded, as told by
`Embeds.nested`. How embeds are fetched does not show: an embed that is sorted by identity takes a
fetch of its own, and is rendered as before.
-/
namespace NestedResources

/-- The embeds that take a fetch of their own, from the top down. -/
def Embeds.topDown (es : Embeds) : List Embed :=
  Sorting.sort (fun d e => compare d.depth e.depth) (es.list.filter Embed.isScoped)

theorem Embeds.mem_topDown {es : Embeds} {e : Embed} :
    e ∈ es.topDown ↔ e ∈ es.list ∧ e.isScoped = true :=
  Sorting.mem_sort.trans List.mem_filter

theorem Embeds.pairwise_topDown (es : Embeds) :
    es.topDown.Pairwise fun d e => d.depth ≤ e.depth :=
  (Sorting.pairwise_sort (Sorting.orders_compare Embed.depth) fun _ _ => trivial).imp Nat.compare_ne_gt.1

namespace Registry

variable {g : Registry} {ctx : Context} {es : Embeds} {root r : Resource}

/-- What a query is compiled into, where `es` are its embeds. -/
structure ReadingOf (g : Registry) (ctx : Context) (r : Resource) (q : Query) (es : Embeds)
    (scope : Option Predicate) (reading : Reading) : Prop where
  resource_eq : reading.resource = r
  root_eq : reading.fetch.resource = r.name
  restricted_eq : ∃ p, g.restricted ctx r q.filter = .ok p ∧
    reading.fetch.predicate = Predicate.conjoin p scope
  sorts_eq : q.sorts.mapM (SortKey.column r) = .ok reading.fetch.sorts
  window_eq : reading.fetch.window = q.window
  includes_eq : g.includesBelow ctx es es.height r [] = .ok reading.fetch.includes
  fetches_eq : es.topDown.mapM (g.scopedFetch ctx r es) = .ok reading.scopedFetches
  selection_eq : reading.selection = .ofQuery q.fields es

theorem readingOf_of_reading {name : String} {q : Query} {scope : Option Predicate}
    {reading : Reading} (hr : g.schema.resource? name = some r) (hes : q.embeds.validate = .ok es)
    (h : g.reading ctx name q scope = .ok reading) : g.ReadingOf ctx r q es scope reading := by
  obtain ⟨r', hr', h⟩ := Except.bind_eq_ok.1 h
  obtain ⟨es', hes', h⟩ := Except.bind_eq_ok.1 h
  obtain ⟨p, hp, h⟩ := Except.bind_eq_ok.1 h
  obtain ⟨sorts, hsorts, h⟩ := Except.bind_eq_ok.1 h
  obtain ⟨includes, hincludes, h⟩ := Except.bind_eq_ok.1 h
  obtain ⟨fetches, hfetches, h⟩ := Except.bind_eq_ok.1 h
  cases h
  cases (Schema.require_eq_ok.1 hr').symm.trans hr
  cases hes'.symm.trans hes
  exact ⟨rfl, rfl, ⟨p, hp, rfl⟩, hsorts, rfl, hincludes, hfetches, rfl⟩

theorem exists_readingOf {name : String} {q : Query} {scope : Option Predicate} {reading : Reading}
    (h : g.reading ctx name q scope = .ok reading) :
    ∃ es, g.schema.resource? reading.resource.name = some reading.resource ∧
      g.ReadingOf ctx reading.resource q es scope reading := by
  obtain ⟨r, hrequire, hrest⟩ := Except.bind_eq_ok.1 h
  obtain ⟨es, hes, -⟩ := Except.bind_eq_ok.1 hrest
  have hr := Schema.require_eq_ok.1 hrequire
  have hof := readingOf_of_reading hr hes h
  rw [hof.resource_eq, Schema.name_of_resource? hr]
  exact ⟨es, hr, hof⟩

/-- The scope of a query does not matter for whether it compiles. -/
theorem reading_eq_error_iff {name : String} {q : Query} {scope : Option Predicate} {e : Error} :
    g.reading ctx name q scope = .error e ↔ g.reading ctx name q none = .error e := by
  simp only [reading, Except.bind_eq_error, Except.pure_eq_error]

/-! ## When a query compiles -/

/-- Whether the path of an embed leads somewhere, and its filter and sorts compile there. -/
def Compiles (g : Registry) (ctx : Context) (root : Resource) (e : Embed) : Prop :=
  ∃ parent target rel p cs, g.schema.at? root e.path.dropLast = some parent ∧
    g.schema.step? parent (e.path.getLastD "") = some (rel, target) ∧
    g.restricted ctx target e.filter = .ok p ∧ e.sorts.mapM (SortKey.column target) = .ok cs

/-- An embed that is fetched along compiles with the includes it is one of, and so do the includes
below it. -/
theorem compiles_of_includesBelow {e : Embed} (he : e ∈ es.list) {start : List String} {name : String}
    (hpath : e.path = start ++ [name]) (hscoped : e.isScoped = false)
    (hat : g.schema.at? root start = some r) {steps : Nat} {below : List Include}
    (hheight : es.height ≤ start.length + steps)
    (hbelow : g.includesBelow ctx es steps r start = .ok below) :
    (∃ target steps below, g.schema.at? root e.path = some target ∧
      es.height ≤ e.path.length + steps ∧ g.includesBelow ctx es steps target e.path = .ok below) ∧
      g.Compiles ctx root e := by
  have hlt := Embeds.length_lt_height he hpath
  obtain ⟨steps, rfl⟩ : ∃ n, steps = n + 1 := ⟨steps - 1, by omega⟩
  have hchild : e ∈ (es.childrenOf start).filter (!·.isScoped) :=
    List.mem_filter.2 ⟨Embeds.mem_childrenOf.2 ⟨he, name, hpath⟩, by simp [hscoped]⟩
  obtain ⟨_, rel, target, p, inner, hstep, hp, hinner, -⟩ :=
    Except.exists_of_forall₂ (includesBelow_eq_ok hbelow) hchild
  have habove : g.schema.at? root e.path.dropLast = some r := by simpa [hpath] using hat
  have hlength : es.height ≤ e.path.length + steps := by
    rw [hpath, List.length_append, List.length_singleton]
    omega
  have hne : e.path ≠ [] := by simp [hpath]
  refine ⟨⟨target, steps, inner, Schema.at?_of_step? hne habove hstep, hlength, hinner⟩, r, target, rel,
    p, [], habove, hstep, hp, ?_⟩
  rw [(Embed.isScoped_eq_false hscoped).1]
  rfl

/-- If the includes at the root and the fetches compile, so does every embed, and the includes below
it. -/
theorem compiles_of_mem {admits : Embed → Prop} (hes : es.Sound admits) {includes : List Include}
    (hincludes : g.includesBelow ctx es es.height root [] = .ok includes)
    (hfetches : ∀ e ∈ es.list, e.isScoped = true → ∃ s, g.scopedFetch ctx root es e = .ok s)
    (path : List String) (hpath : path = [] ∨ path ∈ es.paths) :
    (∃ r steps below, g.schema.at? root path = some r ∧ es.height ≤ path.length + steps ∧
      g.includesBelow ctx es steps r path = .ok below) ∧
      ∀ e ∈ es.list, e.path = path → g.Compiles ctx root e := by
  induction path using List.reverseRecOn with
  | nil =>
    refine ⟨⟨root, es.height, includes, rfl, by simp, hincludes⟩, fun e he hnil => ?_⟩
    exact absurd hnil (hes.path_ne_nil he)
  | append_singleton start name ih =>
    have hm := hpath.resolve_left (by simp)
    have hstart : start = [] ∨ start ∈ es.paths := by
      by_cases hnil : start = []
      · exact .inl hnil
      · exact .inr (hes.closed _ hm start hnil (List.prefix_append start [name]))
    obtain ⟨⟨r, steps, below, hat, hheight, hbelow⟩, -⟩ := ih hstart
    obtain ⟨e, he, hepath⟩ := List.mem_map.1 hm
    suffices h : (∃ target steps below, g.schema.at? root e.path = some target ∧
        es.height ≤ e.path.length + steps ∧ g.includesBelow ctx es steps target e.path = .ok below) ∧
        g.Compiles ctx root e by
      rw [hepath] at h
      refine ⟨h.1, fun d hd hdpath => ?_⟩
      rw [List.inj_on_of_nodup_map hes.single hd he (hdpath.trans hepath.symm)]
      exact h.2
    have hne : e.path ≠ [] := by simp [hepath]
    cases hscoped : e.isScoped with
    | true =>
      obtain ⟨s, hs⟩ := hfetches e he hscoped
      obtain ⟨parent, target, rel, h⟩ := fetchOf_of_scopedFetch hs
      have htarget := Schema.at?_of_step? hne h.at_eq h.step_eq
      exact ⟨⟨target, es.height, _, htarget, Nat.le_add_left .., h.includes_eq⟩,
        parent, target, rel, _, _, h.at_eq, h.step_eq, h.restricted_eq, h.sorts_eq⟩
    | false =>
      exact compiles_of_includesBelow he hepath hscoped hat hheight hbelow

/-- The includes below a path compile if every embed does. -/
theorem exists_includesBelow (h : ∀ e ∈ es.list, g.Compiles ctx root e) (steps : Nat)
    {path : List String} (hat : g.schema.at? root path = some r) :
    ∃ includes, g.includesBelow ctx es steps r path = .ok includes := by
  induction steps generalizing r path with
  | zero => exact ⟨[], rfl⟩
  | succ steps ih =>
    refine Except.exists_mapM_eq_ok fun e he => ?_
    obtain ⟨he, name, hname⟩ := Embeds.mem_childrenOf.1 (List.mem_filter.1 he).1
    obtain ⟨parent, target, rel, p, _, hparent, hstep, hp, -⟩ := h e he
    have habove : e.path.dropLast = path := by simp [hname]
    rw [habove, hat] at hparent
    cases hparent
    obtain ⟨hrel, htarget⟩ := Schema.step?_eq_some.1 hstep
    obtain ⟨inner, hinner⟩ := ih (Schema.at?_of_step? (by simp [hname]) (habove ▸ hat) hstep)
    dsimp only
    rw [hrel]
    refine Except.exists_bind_eq_ok (Schema.require_eq_ok.2 htarget) ?_
    refine Except.exists_bind_eq_ok hp ?_
    exact Except.exists_bind_eq_ok hinner ⟨_, rfl⟩

theorem resourceAt_of_at? (display : List String) {path : List String} {last : Resource}
    (h : g.schema.at? r path = some last) : g.resourceAt display r path = .ok last := by
  induction path generalizing r with
  | nil =>
    cases h
    rfl
  | cons name rest ih =>
    obtain ⟨⟨rel, target⟩, hstep, h⟩ := Option.bind_eq_some_iff.1 h
    obtain ⟨hrel, htarget⟩ := Schema.step?_eq_some.1 hstep
    rw [resourceAt, hrel]
    exact Except.bind_eq_ok.2 ⟨target, Schema.require_eq_ok.2 htarget, ih h⟩

/-- The fetch of an embed compiles if every embed does. -/
theorem exists_scopedFetch (h : ∀ e ∈ es.list, g.Compiles ctx root e) {e : Embed} (he : e ∈ es.list)
    (hne : e.path ≠ []) : ∃ s, g.scopedFetch ctx root es e = .ok s := by
  obtain ⟨parent, target, rel, p, cs, hparent, hstep, hp, hcs⟩ := h e he
  obtain ⟨hrel, htarget⟩ := Schema.step?_eq_some.1 hstep
  obtain ⟨inner, hinner⟩ := exists_includesBelow h es.height (Schema.at?_of_step? hne hparent hstep)
  refine Except.exists_bind_eq_ok (resourceAt_of_at? _ hparent) ?_
  rw [hrel]
  refine Except.exists_bind_eq_ok (Schema.require_eq_ok.2 htarget) ?_
  refine Except.exists_bind_eq_ok hp ?_
  refine Except.exists_bind_eq_ok hcs ?_
  exact Except.exists_bind_eq_ok hinner ⟨_, rfl⟩

/-- A query with sound embeds compiles iff its filter, its sorts and all of its embeds do. -/
theorem exists_reading_iff {name : String} {q : Query} {scope : Option Predicate}
    (hr : g.schema.resource? name = some r) {admits : Embed → Prop} (hes : q.embeds.Sound admits) :
    (∃ reading, g.reading ctx name q scope = .ok reading) ↔
      (∃ p, g.restricted ctx r q.filter = .ok p) ∧ (∃ cs, q.sorts.mapM (SortKey.column r) = .ok cs) ∧
        ∀ e ∈ q.embeds.list, g.Compiles ctx r e := by
  constructor
  · rintro ⟨reading, h⟩
    have hreading := readingOf_of_reading hr hes.validate h
    obtain ⟨p, hp, -⟩ := hreading.restricted_eq
    refine ⟨⟨p, hp⟩, ⟨_, hreading.sorts_eq⟩, fun e he => ?_⟩
    refine (compiles_of_mem hes hreading.includes_eq (fun d hd hscoped => ?_) e.path
      (.inr (List.mem_map_of_mem he))).2 e he rfl
    exact Except.exists_of_forall₂ (Except.mapM_eq_ok.1 hreading.fetches_eq)
      (Embeds.mem_topDown.2 ⟨hd, hscoped⟩)
  · rintro ⟨⟨p, hp⟩, ⟨cs, hcs⟩, h⟩
    have hroot : g.schema.at? r [] = some r := rfl
    obtain ⟨includes, hincludes⟩ := exists_includesBelow h q.embeds.height hroot
    have hscoped : ∀ e ∈ q.embeds.topDown, ∃ s, g.scopedFetch ctx r q.embeds e = .ok s := by
      intro e he
      have hm := (Embeds.mem_topDown.1 he).1
      exact exists_scopedFetch h hm (hes.path_ne_nil hm)
    obtain ⟨fetches, hfetches⟩ := Except.exists_mapM_eq_ok hscoped
    refine Except.exists_bind_eq_ok (Schema.require_eq_ok.2 hr) ?_
    refine Except.exists_bind_eq_ok hes.validate ?_
    refine Except.exists_bind_eq_ok hp ?_
    refine Except.exists_bind_eq_ok hcs ?_
    refine Except.exists_bind_eq_ok hincludes ?_
    exact Except.exists_bind_eq_ok hfetches ⟨_, rfl⟩

/-- A window alone compiles if the gate's filter does. -/
theorem exists_reading_window {name : String} {p : Option Predicate}
    (hr : g.schema.resource? name = some r) (hp : g.required ctx r = .ok p) (window : Window)
    (scope : Option Predicate) : ∃ reading, g.reading ctx name { window } scope = .ok reading := by
  have hes : Embeds.empty.Sound fun _ => True := Embeds.Sound.empty
  have hrestricted : ∃ p, g.restricted ctx r none = .ok p :=
    Except.exists_bind_eq_ok rfl (Except.exists_bind_eq_ok hp ⟨_, rfl⟩)
  exact (exists_reading_iff hr hes).2 ⟨hrestricted, ⟨[], rfl⟩, fun e he => by cases he⟩

end Registry

namespace Query

variable (q : Query) (t : Tables) (schema : Schema) (sees : Resource → Record → Bool) (r : Resource)
  (scope : Option Predicate)

/-- The rows that a query is about, without its window: those that its filter, the gate and the scope
let pass. -/
def matching : List Record :=
  (t.rowsOf r.name).filter fun record =>
    (q.filter.all (·.holds t schema sees r record) && sees r record) && t.passes schema r scope record

/-- The rows that a query selects: sorted by its sorts and then by identity, inside its window. -/
def selected : List Record :=
  q.window.apply (Sorting.sort (Record.compare r (r.columns q.sorts)) (q.matching t schema sees r scope))

/-- The query with another sort list for an embed. -/
def withSorts (path : List String) (sorts : List SortKey) : Query :=
  { q with embeds := q.embeds.modify path fun e => { e with sorts } }

end Query

namespace Registry

variable {g : Registry} {ctx : Context} {r : Resource} {q : Query} {scope : Option Predicate}
  {reading : Reading} (t : Tables) (beyond : Resource → Record → Bool) {levels : Nat}

/-! ## Running a reading -/

theorem passes_predicate (hlt : requiredDepth < levels) {name : String}
    (hr : g.schema.resource? name = some r) {es : Embeds} (h : g.ReadingOf ctx r q es scope reading) :
    (t.rowsOf r.name).filter (t.passes g.schema r reading.fetch.predicate)
      = q.matching t g.schema (g.sees ctx t beyond levels) r scope := by
  obtain ⟨p, hp, hpredicate⟩ := h.restricted_eq
  refine List.filter_congr fun record _ => ?_
  rw [hpredicate, Predicate.passes_conjoin, passes_restricted t beyond hlt hr hp]

/-- The first fetch finds the rows that the query selects, with what is fetched along. -/
theorem fetch_eq (hlt : requiredDepth < levels) (hr : g.schema.resource? r.name = some r)
    {es : Embeds} (h : g.ReadingOf ctx r q es scope reading) :
    t.fetch g.schema reading.fetch = .ok
      ((q.selected t g.schema (g.sees ctx t beyond levels) r scope).map
        ((along es).nested t g.schema (g.sees ctx t beyond levels) r [])) := by
  have hselect : reading.fetch.window.apply (t.select g.schema r (t.rowsOf r.name)
      reading.fetch.predicate reading.fetch.sorts)
        = q.selected t g.schema (g.sees ctx t beyond levels) r scope := by
    rw [Tables.select, passes_predicate t beyond hlt hr h, h.window_eq,
      ← Resource.columns_of_mapM h.sorts_eq]
    rfl
  refine Except.bind_eq_ok.2 ⟨r, Schema.require_eq_ok.2 (h.root_eq ▸ hr), ?_⟩
  dsimp only
  rw [hselect]
  exact Except.mapM_of_forall fun record _ =>
    buildRow_includesBelow t beyond hlt (by simp) h.includes_eq record

/-- Running a reading does not fail, whatever the tables are. -/
theorem exists_rows (hr : g.schema.resource? r.name = some r) {es : Embeds}
    (h : g.ReadingOf ctx r q es scope reading) : ∃ rows, reading.rows t g.schema = .ok rows := by
  have hlt : requiredDepth < requiredDepth + 1 := by decide
  refine Except.exists_bind_eq_ok (fetch_eq t (fun _ _ => true) hlt hr h) ?_
  generalize List.map _ _ = rows
  have hfetches := Except.mapM_eq_ok.1 h.fetches_eq
  generalize es.topDown = embeds, reading.scopedFetches = fetches at hfetches
  induction hfetches generalizing rows with
  | nil => exact ⟨rows, rfl⟩
  | cons hs _ ih =>
    obtain ⟨parent, target, rel, hof⟩ := fetchOf_of_scopedFetch hs
    have hparent := Schema.resource?_of_at? hr hof.at_eq
    rw [List.foldlM_cons]
    refine Except.exists_bind_eq_ok (ScopedFetch.run_eq_map
      (Schema.require_eq_ok.2 (hof.resource_eq ▸ hparent))
      (fetchRelated_eq t (fun _ _ => true) hlt hof hparent _) fun hnone => ?_) (ih _)
    rw [hnone]
    rfl

theorem exists_rows_of_reading {name : String} (h : g.reading ctx name q scope = .ok reading) :
    ∃ rows, reading.rows t g.schema = .ok rows := by
  obtain ⟨es, hr, hof⟩ := exists_readingOf h
  exact exists_rows t hr hof

/-- The rows of a reading are those that the query selects, each with everything that is embedded. -/
theorem rows_eq (hlt : requiredDepth < levels) (hfiled : t.Filed g.schema)
    (hr : g.schema.resource? r.name = some r) (hes : q.embeds.Sound (Embed.Admitted g.schema r))
    (h : g.ReadingOf ctx r q q.embeds scope reading) :
    reading.rows t g.schema = .ok
      ((q.selected t g.schema (g.sees ctx t beyond levels) r scope).map
        (q.embeds.nested t g.schema (g.sees ctx t beyond levels) r [])) := by
  have hrecords : ∀ record ∈ q.selected t g.schema (g.sees ctx t beyond levels) r scope,
      record ∈ t.rowsOf r.name := fun record hm =>
    (List.mem_filter.1 (Sorting.mem_sort.1 (Window.mem_of_mem_apply hm))).1
  have hfetch := fetch_eq t beyond hlt hr h
  rw [← after_nil] at hfetch
  refine Except.bind_eq_ok.2 ⟨_, hfetch, ?_⟩
  rw [foldlM_run t beyond hlt hfiled hes hr h.fetches_eq (fun _ => Embeds.mem_topDown.1) []
    q.embeds.pairwise_topDown hrecords]
  refine congrArg Except.ok (List.map_congr_left fun record _ => ?_)
  refine Embeds.nested_congr (Embeds.single_only hes.single _) hes.single rfl
    (Embeds.agree_of_get?_eq fun start name _ => ?_) record
  rw [Embeds.get?_only hes.single]
  cases hd : q.embeds.get? (start ++ [name]) with
  | none => rfl
  | some d =>
    have hm := ((Embeds.get?_eq_some_iff hes.single).1 hd).1
    cases hds : d.isScoped with
    | false => simp [Option.filter, hds]
    | true =>
      have hfetched : (([] ++ q.embeds.topDown).any fun c => decide (c.path = d.path)) = true :=
        List.any_eq_true.2 ⟨d, Embeds.mem_topDown.2 ⟨hm, hds⟩, decide_eq_true rfl⟩
      simp only [Option.filter, hds, Bool.not_true, Bool.false_or, hfetched, if_true]

/-- A page holds the rows that are selected and counts those that the query is about. -/
theorem collection_eq (hlt : requiredDepth < levels) (hfiled : t.Filed g.schema)
    (hr : g.schema.resource? r.name = some r) (hes : q.embeds.Sound (Embed.Admitted g.schema r))
    (h : g.ReadingOf ctx r q q.embeds scope reading) (style : RenderStyle) :
    reading.collection t g.schema style = .ok
      { items := ((q.selected t g.schema (g.sees ctx t beyond levels) r scope).map
          (q.embeds.nested t g.schema (g.sees ctx t beyond levels) r [])).map
            (Row.render g.schema style r (.ofQuery q.fields q.embeds))
        available := (q.matching t g.schema (g.sees ctx t beyond levels) r scope).length.toUInt64
        page := .ofWindow q.window
          (q.matching t g.schema (g.sees ctx t beyond levels) r scope).length.toUInt64 } := by
  refine Except.bind_eq_ok.2 ⟨_, rows_eq t beyond hlt hfiled hr hes h, ?_⟩
  refine Except.bind_eq_ok.2 ⟨(q.matching t g.schema (g.sees ctx t beyond levels) r scope).length, ?_, ?_⟩
  · rw [h.resource_eq]
    refine Except.bind_eq_ok.2 ⟨r, Schema.require_eq_ok.2 hr, ?_⟩
    rw [List.countP_eq_length_filter, passes_predicate t beyond hlt hr h]
  · rw [h.resource_eq, h.selection_eq, h.window_eq]
    rfl

theorem first_eq (hlt : requiredDepth < levels) (hfiled : t.Filed g.schema)
    (hr : g.schema.resource? r.name = some r) (hes : q.embeds.Sound (Embed.Admitted g.schema r))
    (h : g.ReadingOf ctx r q q.embeds scope reading) (style : RenderStyle) :
    reading.first t g.schema style = .ok
      (((q.selected t g.schema (g.sees ctx t beyond levels) r scope).map
        (q.embeds.nested t g.schema (g.sees ctx t beyond levels) r [])).head?.map
          (Row.render g.schema style r (.ofQuery q.fields q.embeds))) := by
  refine Except.bind_eq_ok.2 ⟨_, rows_eq t beyond hlt hfiled hr hes h, ?_⟩
  rw [h.resource_eq, h.selection_eq]
  rfl

end Registry

/-! ## Sorting an embed by identity -/

namespace Selection

/-- What is rendered depends on the fields that are selected at each path. -/
theorem ofEmbeds_congr {es fs : Embeds} (hes : es.paths.Nodup) (hfs : fs.paths.Nodup)
    (h : ∀ path, (es.get? path).map Embed.fields = (fs.get? path).map Embed.fields)
    (levels : Nat) (fields path : List String) :
    ofEmbeds es levels fields path = ofEmbeds fs levels fields path := by
  induction levels generalizing fields path with
  | zero => rfl
  | succ levels ih =>
    refine congrArg (mk fields) ((Entries.Ordered.ofList _).ext (.ofList _) fun name => ?_)
    rw [Entries.get?_ofList_map (Embeds.nodup_names hes path),
      Entries.get?_ofList_map (Embeds.nodup_names hfs path), Embeds.find?_childrenOf hes,
      Embeds.find?_childrenOf hfs]
    have hfields := h (path ++ [name])
    cases he : es.get? (path ++ [name]) with
    | none =>
      rw [he, Option.map_none, eq_comm, Option.map_eq_none_iff] at hfields
      rw [hfields]
      rfl
    | some e =>
      rw [he, Option.map_some, eq_comm, Option.map_eq_some_iff] at hfields
      obtain ⟨d, hd, hsame⟩ := hfields
      rw [hd, Option.map_some, Option.map_some, hsame, ((Embeds.get?_eq_some_iff hes).1 he).2,
        ((Embeds.get?_eq_some_iff hfs).1 hd).2, ih]

theorem ofQuery_congr {es fs : Embeds} (hes : es.paths.Nodup) (hfs : fs.paths.Nodup)
    (h : ∀ path, (es.get? path).map Embed.fields = (fs.get? path).map Embed.fields)
    (fields : List String) : ofQuery fields es = ofQuery fields fs := by
  have hpaths : ∀ path, path ∈ es.paths ↔ path ∈ fs.paths := fun path => by
    rw [← Embeds.isSome_get?_iff, ← Option.isSome_map, h, Option.isSome_map, Embeds.isSome_get?_iff]
  rw [ofQuery, Embeds.height_congr hes hfs hpaths, ofEmbeds_congr hes hfs h]
  rfl

end Selection

theorem Query.get?_withSorts (q : Query) (path : List String) (sorts : List SortKey)
    (other : List String) : (q.withSorts path sorts).embeds.get? other
      = if other = path then (q.embeds.get? other).map fun e => { e with sorts }
        else q.embeds.get? other :=
  Embeds.get?_modify (f := fun e => { e with sorts }) (fun _ => rfl) other

/-- Sorting an embed does not change what is rendered of it. -/
theorem Selection.ofQuery_withSorts {q : Query} {path : List String} {sorts : List SortKey}
    (hes : q.embeds.paths.Nodup) (hes' : (q.withSorts path sorts).embeds.paths.Nodup) :
    ofQuery q.fields (q.withSorts path sorts).embeds = ofQuery q.fields q.embeds := by
  refine ofQuery_congr hes' hes (fun other => ?_) q.fields
  rw [Query.get?_withSorts]
  split
  · rw [Option.map_map]
    rfl
  · rfl

/-- An embed without sorts shows the same when it is sorted by identity. -/
theorem Embed.shown_identitySorts {e : Embed} (hsorts : e.sorts = []) {target : Resource}
    {fields : Nat} {cs : List ColumnSort}
    (hcs : (target.identitySorts fields).mapM (SortKey.column target) = .ok cs) (t : Tables)
    (schema : Schema) (sees : Resource → Record → Bool) (r : Resource) (record : Record)
    (rel : Relationship) :
    Embed.shown { e with sorts := target.identitySorts fields } t schema sees r record rel target
      = e.shown t schema sees r record rel target := by
  rw [shown, shown, hsorts, Resource.columns_of_mapM hcs, Record.compare_identitySorts hcs]
  rfl

namespace Registry

variable {g : Registry} {ctx : Context} {r target : Resource} {q : Query} {path : List String}
  {e : Embed} {fields : Nat} {cs : List ColumnSort}

/-- Sorting an embed by identity changes nothing about what rows carry. -/
theorem agree_withSorts (t : Tables) (sees : Resource → Record → Bool)
    (he : q.embeds.get? path = some e) (hsorts : e.sorts = [])
    (hat : g.schema.at? r path = some target)
    (hcs : (target.identitySorts fields).mapM (SortKey.column target) = .ok cs) :
    Embeds.Agree t g.schema sees r [] (q.withSorts path (target.identitySorts fields)).embeds
      q.embeds := by
  intro start _ parent hparent name
  rw [Query.get?_withSorts]
  by_cases hpath : start ++ [name] = path
  · rw [if_pos hpath, hpath, he]
    refine ⟨rfl, fun d e' hd he' rel target' hstep record => ?_⟩
    cases hd
    cases he'
    rw [← hpath, Schema.at?_concat hparent, hstep] at hat
    cases hat
    exact Embed.shown_identitySorts hsorts hcs t g.schema sees parent record rel
  · rw [if_neg hpath]
    refine ⟨rfl, fun d e' hd he' _ _ _ _ => ?_⟩
    rw [hd] at he'
    cases he'
    rfl

/-- A query that compiles still does when an embed is sorted by identity. -/
theorem exists_reading_withSorts {name : String} {scope : Option Predicate} {reading : Reading}
    {admits admits' : Embed → Prop} (hr : g.schema.resource? name = some r)
    (hes : q.embeds.Sound admits)
    (hes' : (q.withSorts path (target.identitySorts fields)).embeds.Sound admits')
    (hat : g.schema.at? r path = some target)
    (hcs : (target.identitySorts fields).mapM (SortKey.column target) = .ok cs)
    (h : g.reading ctx name q scope = .ok reading) :
    ∃ reading', g.reading ctx name (q.withSorts path (target.identitySorts fields)) scope
      = .ok reading' := by
  obtain ⟨hfilter, hsorts, hembeds⟩ := (exists_reading_iff hr hes).1 ⟨reading, h⟩
  refine (exists_reading_iff hr hes').2 ⟨hfilter, hsorts, fun e he => ?_⟩
  rcases Embeds.mem_modifyFirst he with he | ⟨d, hd, rfl, rfl⟩
  · exact hembeds e he
  · obtain ⟨parent, target', rel, p, _, hparent, hstep, hp, -⟩ := hembeds d hd
    cases (Schema.at?_of_step? (hes.path_ne_nil hd) hparent hstep).symm.trans hat
    exact ⟨parent, target, rel, p, cs, hparent, hstep, hp, hcs⟩

/-- Running a query that was read from parameters gives the rows that it selects, each with everything
that is embedded: below every row, at every path, the members that the embed shows. How embeds are
fetched does not matter: one that is not sorted may be sorted by its identity, which gives it a fetch
of its own, and the same is rendered. -/
theorem rows_eq_nested (t : Tables) (beyond : Resource → Record → Bool) {levels : Nat}
    (hlt : requiredDepth < levels) {limits : QueryLimits} {params : Params} {scope : Option Predicate}
    {reading : Reading} (hr : g.schema.resource? r.name = some r)
    (hq : QuerySite.read ⟨g.schema, limits⟩ r params = .ok q)
    (h : g.reading ctx r.name q scope = .ok reading) (hfiled : t.Filed g.schema) :
    reading.rows t g.schema = .ok
        ((q.selected t g.schema (g.sees ctx t beyond levels) r scope).map
          (q.embeds.nested t g.schema (g.sees ctx t beyond levels) r [])) ∧
      ∀ (path : List String) (e : Embed) (target : Resource) (fields : Nat) (params' : Params),
        q.embeds.get? path = some e → e.sorts = [] → g.schema.at? r path = some target →
        QuerySite.read ⟨g.schema, limits⟩ r params'
          = .ok (q.withSorts path (target.identitySorts fields)) →
        ∃ reading', g.reading ctx r.name (q.withSorts path (target.identitySorts fields)) scope
            = .ok reading' ∧
          reading'.rows t g.schema = reading.rows t g.schema ∧
          ∀ style, reading'.collection t g.schema style = reading.collection t g.schema style ∧
            reading'.first t g.schema style = reading.first t g.schema style := by
  have hes : q.embeds.Sound (Embed.Admitted g.schema r) := QuerySite.sound_read hq
  have hreading := readingOf_of_reading hr hes.validate h
  refine ⟨rows_eq t beyond hlt hfiled hr hes hreading, ?_⟩
  intro path e target fields params' he hsorts hat hq'
  have hes' : (q.withSorts path (target.identitySorts fields)).embeds.Sound
      (Embed.Admitted g.schema r) := QuerySite.sound_read hq'
  have hsorted : (q.withSorts path (target.identitySorts fields)).embeds.get? path
      = some { e with sorts := target.identitySorts fields } := by
    rw [Query.get?_withSorts, if_pos rfl, he]
    rfl
  obtain ⟨hm, hpath⟩ := (Embeds.get?_eq_some_iff hes'.single).1 hsorted
  obtain ⟨cs, hcs⟩ := Except.exists_mapM_eq_ok
    ((hes'.admitted _ hm).sortable target (hpath.symm ▸ hat))
  obtain ⟨reading', h'⟩ := exists_reading_withSorts hr hes hes' hat hcs h
  have hreading' := readingOf_of_reading hr hes'.validate h'
  have hnested := funext (Embeds.nested_congr hes'.single hes.single rfl
    (agree_withSorts t (g.sees ctx t beyond levels) he hsorts hat hcs))
  have hselection := Selection.ofQuery_withSorts hes.single hes'.single
  refine ⟨reading', h', ?_, fun style => ⟨?_, ?_⟩⟩
  · rw [rows_eq t beyond hlt hfiled hr hes' hreading', rows_eq t beyond hlt hfiled hr hes hreading, hnested]
    rfl
  · rw [collection_eq t beyond hlt hfiled hr hes' hreading', collection_eq t beyond hlt hfiled hr hes hreading,
      hnested, ← hselection]
    rfl
  · rw [first_eq t beyond hlt hfiled hr hes' hreading', first_eq t beyond hlt hfiled hr hes hreading,
      hnested, ← hselection]
    rfl

end Registry

namespace Music

/-- Employees with their managers and with their reports, each with the manager again. -/
def team : Query where
  embeds := ⟨[{ path := ["manager"], explicit := true }, { path := ["reports"] },
    { path := ["reports", "manager"], explicit := true }]⟩

def teamParams : Params := ⟨[("embeds", "manager,reports.manager")]⟩

theorem filed_staffTables {rows : List Employee}
    (h : ∀ e ∈ rows, (employees.identityOf? e.record).any (·.key = keyOf e.id) = true) :
    (staffTables rows).Filed staff.schema := by
  have hemployees : staff.schema.resource? "employees" = some employees := by decide +kernel
  unfold staffTables
  suffices hfold : ∀ t : Tables, t.Filed staff.schema →
      (rows.foldl (fun t e => t.putRow "employees" (keyOf e.id) e.record) t).Filed staff.schema from
    hfold .empty (Tables.filed_empty staff.schema)
  induction rows with
  | nil => exact fun t ht => ht
  | cons e rows ih =>
    refine fun t ht => ih (fun d hd => h d (List.mem_cons_of_mem e hd)) _ (ht.putRow fun r hr => ?_)
    cases hr.symm.trans hemployees
    obtain ⟨i, hi, hkey⟩ := (Option.any_eq_true _ _).1 (h e List.mem_cons_self)
    exact ⟨i, hi, by simpa using hkey⟩

theorem rows_team : ∃ reading, staff.reading (asUser 2) "employees" team none = .ok reading ∧
    reading.rows (staffTables employeeRows) staff.schema = .ok
      ((team.selected (staffTables employeeRows) staff.schema (staff.sees (asUser 2)
        (staffTables employeeRows) (fun _ _ => true) 9) employees none).map
          (team.embeds.nested (staffTables employeeRows) staff.schema (staff.sees (asUser 2)
            (staffTables employeeRows) (fun _ _ => true) 9) employees [])) ∧
    ∃ reading', staff.reading (asUser 2) "employees"
        (team.withSorts ["reports"] (employees.identitySorts 1)) none = .ok reading' ∧
      reading'.rows (staffTables employeeRows) staff.schema
        = reading.rows (staffTables employeeRows) staff.schema := by
  have hok : (staff.reading (asUser 2) "employees" team none).isOk := by decide +kernel
  obtain ⟨reading, h⟩ := Except.exists_of_isOk hok
  have hemployees : staff.schema.resource? employees.name = some employees := by decide +kernel
  have hread : QuerySite.read ⟨staff.schema, {}⟩ employees teamParams = .ok team := rfl
  obtain ⟨hrows, hsorted⟩ := Registry.rows_eq_nested (staffTables employeeRows) (fun _ _ => true)
    (by decide : requiredDepth < 9) hemployees hread h (filed_staffTables (by decide +kernel))
  obtain ⟨reading', h', hsame, -⟩ := hsorted ["reports"] { path := ["reports"] } employees 1
    (teamParams.append [("reports._sorts_", "employee_id")]) rfl rfl rfl rfl
  exact ⟨reading, h, hrows, reading', h', hsame⟩

end Music

end NestedResources
