import NestedResources.Proofs.Query.OfParams
import NestedResources.Proofs.Read.Attach
import NestedResources.Proofs.Read.Includes

/-!
# Fetches of their own

Embeds with sorts or windows are fetched one after the other. Every fetch adds one embed to those that
the rows carry: it is not above any that were added before, so what it brings along is all that is
known below it (`Registry.run_scopedFetch`). All together they add every embed (`Registry.foldlM_run`).
-/
namespace NestedResources

namespace Embeds

variable {t : Tables} {schema : Schema} {sees : Resource → Record → Bool} {es fs : Embeds}

/-- Rows at the end of a path are rows of the resource that the path leads to. -/
theorem record_mem_rowsOf (hes : es.paths.Nodup) {rest : List String} {r parent : Resource}
    {path : List String} {record : Record} (hat : schema.at? r rest = some parent)
    (hrecord : record ∈ t.rowsOf r.name) {row : Row}
    (hrow : row ∈ Row.rowsAt rest [nested t schema sees es r path record]) :
    row.record ∈ t.rowsOf parent.name := by
  induction rest generalizing r path record with
  | nil =>
    cases hat
    rw [List.mem_singleton.1 hrow, record_nested]
    exact hrecord
  | cons name rest ih =>
    obtain ⟨⟨rel, target⟩, hstep, hat⟩ := Option.bind_eq_some_iff.1 hat
    rw [Row.rowsAt_cons, get?_nested hes] at hrow
    cases he : es.get? (path ++ [name]) with
    | none =>
      rw [he] at hrow
      cases hrow
    | some e =>
      obtain ⟨-, hpath⟩ := (get?_eq_some_iff hes).1 he
      have hname : e.path.getLastD "" = name := by rw [hpath]; simp
      simp only [he, Option.map_some, Option.getD_some, carried, hname, hstep] at hrow
      obtain ⟨start, hstart, hrow⟩ := Row.mem_rowsAt.1 hrow
      obtain ⟨member, hmember, rfl⟩ := List.mem_map.1 (Relationship.mem_of_mem_rows_arrange hstart)
      exact ih hat (Embed.mem_rowsOf_of_mem_shown hstep hmember) hrow

/-- Where `fs` has one more embed than `es`, what is carried off the path to it stays. -/
theorem map_carried_eq (hes : es.paths.Nodup) (hfs : fs.paths.Nodup) {root r : Resource}
    {above start : List String} {e : Embed} {name other : String} (hpath : e.path = above ++ [name])
    (hother : ∀ path, path ≠ e.path → es.get? path = fs.get? path)
    (hne : start ++ [other] ≠ e.path) (hnot : ¬ start ++ [other] <+: above)
    (hat : schema.at? root start = some r) (record : Record) :
    (es.get? (start ++ [other])).map (carried t schema sees es r record)
      = (fs.get? (start ++ [other])).map (carried t schema sees fs r record) := by
  rw [hother _ hne]
  cases hd : fs.get? (start ++ [other]) with
  | none => rfl
  | some d =>
    obtain ⟨-, hdpath⟩ := (get?_eq_some_iff hfs).1 hd
    refine congrArg some (carried_congr hes hfs hat hdpath (agree_of_get?_eq fun longer last hlonger =>
      hother _ fun heq => hnot ?_) record)
    rw [hpath] at heq
    rw [← hdpath, ← (List.append_inj' heq rfl).1]
    exact hlonger

/-- Attaching what one more embed carries makes a row that carries that embed. -/
theorem attach_nested (hes : es.paths.Nodup) (hfs : fs.paths.Nodup) {root parent : Resource}
    {above : List String} (hparent : schema.at? root above = some parent) {e : Embed} {name : String}
    (hpath : e.path = above ++ [name]) (he : fs.get? e.path = some e)
    (hother : ∀ path, path ≠ e.path → es.get? path = fs.get? path) (record : Record) :
    (nested t schema sees es parent above record).attach name (carried t schema sees fs parent record e)
      = nested t schema sees fs parent above record := by
  refine eq_of_get? (by simp) ((ordered_nested ..).insert ..) (ordered_nested ..) fun other => ?_
  rw [Row.related_attach, get?_nested hfs]
  by_cases heq : other = name
  · subst heq
    rw [← hpath, he, Entries.get?_insert_self]
    rfl
  · have hne : above ++ [other] ≠ e.path := by simpa [hpath] using heq
    have hnot : ¬ above ++ [other] <+: above := by
      intro hle
      have hlength := hle.length_le
      rw [List.length_append, List.length_singleton] at hlength
      omega
    rw [Entries.get?_insert_of_ne heq, get?_nested hes]
    exact map_carried_eq hes hfs hpath hother hne hnot hparent record

/-- Attaching what one more embed carries, to the rows above it, makes rows that carry that embed. -/
theorem modifyAt_nested (hes : es.paths.Nodup) (hfs : fs.paths.Nodup) {root parent : Resource}
    {above : List String} (hparent : schema.at? root above = some parent) {e : Embed} {name : String}
    (hpath : e.path = above ++ [name]) (he : fs.get? e.path = some e)
    (hother : ∀ path, path ≠ e.path → es.get? path = fs.get? path) {rest start : List String}
    {r : Resource} (hsplit : start ++ rest = above) (hat : schema.at? root start = some r)
    (record : Record) :
    Row.modifyAt (fun row => row.attach name (carried t schema sees fs parent row.record e)) rest
        (nested t schema sees es r start record) = nested t schema sees fs r start record := by
  induction rest generalizing start r record with
  | nil =>
    rw [List.append_nil] at hsplit
    subst hsplit
    cases hat.symm.trans hparent
    rw [Row.modifyAt, record_nested]
    exact attach_nested hes hfs hparent hpath he hother record
  | cons next rest ih =>
    refine eq_of_get? (by simp) (Row.ordered_modifyAt_cons (ordered_nested ..) ..)
      (ordered_nested ..) fun other => ?_
    have hne : start ++ [other] ≠ e.path := by
      intro heq
      have hlength := congrArg List.length heq
      rw [hpath, ← hsplit] at hlength
      simp at hlength
    rw [Row.get?_modifyAt_cons, get?_nested hes, get?_nested hes, get?_nested hfs]
    by_cases heq : other = next
    · subst heq
      rw [if_pos rfl, hother _ hne]
      cases hd : fs.get? (start ++ [other]) with
      | none => rfl
      | some d =>
        obtain ⟨-, hdpath⟩ := (get?_eq_some_iff hfs).1 hd
        have hname : d.path.getLastD "" = other := by rw [hdpath]; simp
        simp only [Option.map_some, carried, hname]
        cases hstep : schema.step? r other with
        | none => rfl
        | some x =>
          obtain ⟨rel, target⟩ := x
          have htarget : schema.at? root (start ++ [other]) = some target := by
            rw [Schema.at?_concat hat, hstep]
            rfl
          have hmember := funext (ih (by rw [List.append_assoc]; exact hsplit) htarget)
          rw [Relationship.mapRows_arrange, List.map_map, hdpath]
          exact congrArg (fun f => some (rel.arrange (List.map f _))) hmember
    · have hnot : ¬ start ++ [other] <+: above := by
        rw [← hsplit, List.prefix_append_right_inj, List.singleton_prefix_cons_iff]
        exact heq
      rw [if_neg heq]
      exact map_carried_eq hes hfs hpath hother hne hnot hat record

end Embeds

namespace Registry

variable {g : Registry} {ctx : Context} (t : Tables) (beyond : Resource → Record → Bool) {levels : Nat}
  {es : Embeds} {root : Resource}

theorem at?_of_resourceAt {display path : List String} {r last : Resource}
    (h : g.resourceAt display r path = .ok last) : g.schema.at? r path = some last := by
  induction path generalizing r with
  | nil =>
    cases h
    rfl
  | cons name rest ih =>
    unfold resourceAt at h
    split at h
    · cases h
    · rename_i rel hrel
      obtain ⟨target, htarget, h⟩ := Except.bind_eq_ok.1 h
      rw [Schema.at?, Schema.step?_eq_some.2 ⟨hrel, Schema.require_eq_ok.1 htarget⟩]
      exact ih h

/-- The fetch that an embed is compiled into, where its relationship leads from `parent` to `target`. -/
structure FetchOf (g : Registry) (ctx : Context) (es : Embeds) (root : Resource) (e : Embed)
    (s : ScopedFetch) (parent target : Resource) (rel : Relationship) : Prop where
  at_eq : g.schema.at? root e.path.dropLast = some parent
  step_eq : g.schema.step? parent (e.path.getLastD "") = some (rel, target)
  path_eq : s.path = e.path
  resource_eq : s.request.resource = parent.name
  relationship_eq : s.request.relationship = e.path.getLastD ""
  restricted_eq : g.restricted ctx target e.filter = .ok s.request.predicate
  sorts_eq : e.sorts.mapM (SortKey.column target) = .ok s.request.sorts
  window_eq : s.request.window = e.window
  includes_eq : g.includesBelow ctx es es.height target e.path = .ok s.request.includes

theorem fetchOf_of_scopedFetch {e : Embed} {s : ScopedFetch}
    (h : g.scopedFetch ctx root es e = .ok s) :
    ∃ parent target rel, g.FetchOf ctx es root e s parent target rel := by
  obtain ⟨parent, hparent, h⟩ := Except.bind_eq_ok.1 h
  split at h
  · cases h
  · rename_i rel hrel
    obtain ⟨target, htarget, h⟩ := Except.bind_eq_ok.1 h
    obtain ⟨p, hp, h⟩ := Except.bind_eq_ok.1 h
    obtain ⟨cs, hcs, h⟩ := Except.bind_eq_ok.1 h
    obtain ⟨inner, hinner, h⟩ := Except.bind_eq_ok.1 h
    cases h
    exact ⟨parent, target, rel, at?_of_resourceAt hparent,
      Schema.step?_eq_some.2 ⟨hrel, Schema.require_eq_ok.1 htarget⟩, rfl, rfl, rfl, hp, hcs, rfl, hinner⟩

/-- The rows that the fetch of an embed finds for a key. -/
def found (g : Registry) (ctx : Context) (t : Tables) (beyond : Resource → Record → Bool)
    (levels : Nat) (es : Embeds) (e : Embed) (parent target : Resource) (rel : Relationship)
    (key : String) : List Row :=
  match t.rowAt? parent.name key with
  | none => []
  | some record => (e.shown t g.schema (g.sees ctx t beyond levels) parent record rel target).map
    ((along es).nested t g.schema (g.sees ctx t beyond levels) target e.path)

variable {e : Embed} {s : ScopedFetch} {parent target : Resource} {rel : Relationship}

/-- What is fetched for parents is what their embed shows, with what is fetched along. -/
theorem fetchRelated_eq (hlt : requiredDepth < levels) (h : g.FetchOf ctx es root e s parent target rel)
    (hparent : g.schema.resource? parent.name = some parent) (parents : List Identity) :
    t.fetchRelated g.schema { s.request with parents } = .ok (parents.map fun j =>
      ⟨j, g.found ctx t beyond levels es e parent target rel j.key⟩) := by
  obtain ⟨hrel, htarget⟩ := Schema.step?_eq_some.1 h.step_eq
  refine Except.bind_eq_ok.2 ⟨parent, Schema.require_eq_ok.2 (h.resource_eq ▸ hparent), ?_⟩
  refine Except.bind_eq_ok.2 ⟨rel, Resource.requireRelationship_eq_ok.2 (h.relationship_eq ▸ hrel), ?_⟩
  refine Except.bind_eq_ok.2 ⟨target, Schema.require_eq_ok.2 htarget, ?_⟩
  refine Except.mapM_of_forall fun j _ => ?_
  unfold found
  rw [Tables.row?]
  cases t.rowAt? parent.name j.key with
  | none => rfl
  | some record =>
    have hshown := apply_select_eq_shown t beyond hlt htarget h.restricted_eq h.sorts_eq parent record
      rel
    refine Except.bind_eq_ok.2 ⟨_, Except.mapM_of_forall fun member _ =>
      buildRow_includesBelow t beyond hlt (Nat.le_add_left ..) h.includes_eq member, ?_⟩
    rw [h.window_eq, hshown]

/-- Running the fetch of an embed attaches to the rows above it what the embed shows for them. -/
theorem run_eq (hlt : requiredDepth < levels) (hfiled : t.Filed g.schema)
    (h : g.FetchOf ctx es root e s parent target rel)
    (hparent : g.schema.resource? parent.name = some parent) {rows : List Row}
    (hrows : ∀ row ∈ Row.rowsAt e.path.dropLast rows, row.record ∈ t.rowsOf parent.name) :
    s.run t g.schema rows = .ok (rows.map (Row.modifyAt (fun row => row.attach (e.path.getLastD "")
      (.many ((e.shown t g.schema (g.sees ctx t beyond levels) parent row.record rel target).map
        ((along es).nested t g.schema (g.sees ctx t beyond levels) target e.path))))
      e.path.dropLast)) := by
  have hfetch := fetchRelated_eq t beyond hlt h hparent
    (ScopedFetch.parentsOf parent (Row.rowsAt e.path.dropLast rows))
  rw [← h.path_eq] at hfetch hrows ⊢
  rw [ScopedFetch.run_eq_map (Schema.require_eq_ok.2 (h.resource_eq ▸ hparent)) hfetch
    (fun hnone => by rw [hnone]; rfl), h.relationship_eq, ← h.path_eq]
  refine congrArg Except.ok (List.map_congr_left fun row hrow => Row.modifyAt_congr fun below hbelow => ?_)
  have hmem := Row.mem_rowsAt.2 ⟨row, hrow, hbelow⟩
  obtain ⟨i, hi, hrowAt⟩ := hfiled.row?_of_mem hparent (hrows below hmem)
  rw [Tables.row?] at hrowAt
  rw [ScopedFetch.membersOf_eq hi (ScopedFetch.exists_mem_parentsOf hmem hi), found, hrowAt, h.path_eq]

/-! ## One fetch after the other -/

/-- The embeds that rows carry when the fetches of `done` are made. -/
def after (es : Embeds) (done : List Embed) : Embeds :=
  es.only fun d => !d.isScoped || done.any (·.path = d.path)

theorem after_nil (es : Embeds) : after es [] = along es := by
  simp [after, along]

theorem get?_after_concat (hes : es.paths.Nodup) (done : List Embed) (he : e ∈ es.list) :
    (after es (done ++ [e])).get? e.path = some e ∧
      ∀ path, path ≠ e.path → (after es done).get? path = (after es (done ++ [e])).get? path := by
  constructor
  · rw [after, Embeds.get?_only hes, (Embeds.get?_eq_some_iff hes).2 ⟨he, rfl⟩]
    simp
  · intro path hne
    rw [after, after, Embeds.get?_only hes, Embeds.get?_only hes]
    cases hd : es.get? path with
    | none => rfl
    | some d =>
      have hpath := ((Embeds.get?_eq_some_iff hes).1 hd).2
      simp [Option.filter, hpath, hne.symm]

/-- Below an embed that is not above those before it, only the embeds fetched along are carried. -/
theorem nested_after_eq_along (hes : es.paths.Nodup) {done : List Embed}
    (hdepth : ∀ d ∈ done, d.depth ≤ e.depth) (hat : g.schema.at? root e.path = some target)
    (sees : Resource → Record → Bool) :
    (after es (done ++ [e])).nested t g.schema sees target e.path
      = (along es).nested t g.schema sees target e.path := by
  funext record
  refine Embeds.nested_congr (Embeds.single_only hes _) (Embeds.single_only hes _) hat
    (Embeds.agree_of_get?_eq fun start name hstart => ?_) record
  rw [Embeds.get?_only hes, Embeds.get?_only hes]
  cases hd : es.get? (start ++ [name]) with
  | none => rfl
  | some d =>
    have hpath := ((Embeds.get?_eq_some_iff hes).1 hd).2
    have hnew : ((done ++ [e]).any fun c => decide (c.path = d.path)) = false := by
      rw [List.any_eq_false]
      intro c hc hcpath
      replace hcpath := of_decide_eq_true hcpath
      have hle : c.path.length ≤ e.path.length := by
        rcases List.mem_append.1 hc with hc | hc
        · exact hdepth c hc
        · have hlast : c.path = e.path := congrArg Embed.path (List.mem_singleton.1 hc)
          exact Nat.le_of_eq (congrArg List.length hlast)
      have hlength := hstart.length_le
      rw [hcpath, hpath, List.length_append, List.length_singleton] at hle
      omega
    simp only [Option.filter, hnew, Bool.or_false]

/-- One more fetch makes the rows carry one more embed. -/
theorem run_scopedFetch (hlt : requiredDepth < levels) (hfiled : t.Filed g.schema)
    (hes : es.Sound (Embed.Admitted g.schema root)) (hroot : g.schema.resource? root.name = some root)
    (hs : g.scopedFetch ctx root es e = .ok s) (he : e ∈ es.list) (hscoped : e.isScoped = true)
    {done : List Embed} (hdepth : ∀ d ∈ done, d.depth ≤ e.depth) {records : List Record}
    (hrecords : ∀ record ∈ records, record ∈ t.rowsOf root.name) :
    s.run t g.schema
        (records.map ((after es done).nested t g.schema (g.sees ctx t beyond levels) root []))
      = .ok (records.map
        ((after es (done ++ [e])).nested t g.schema (g.sees ctx t beyond levels) root [])) := by
  obtain ⟨parent, target, rel, h⟩ := fetchOf_of_scopedFetch hs
  obtain ⟨parent', rel', target', hat, hstep, hmany⟩ := (hes.admitted e he).toMany hscoped
  cases hat.symm.trans h.at_eq
  cases hstep.symm.trans h.step_eq
  have hne := hes.path_ne_nil he
  have hpath := (List.dropLast_append_getLastD hne).symm
  have htarget := Schema.at?_of_step? hne hat hstep
  have hcarried (record : Record) :
      (after es (done ++ [e])).carried t g.schema (g.sees ctx t beyond levels) parent record e
        = .many ((e.shown t g.schema (g.sees ctx t beyond levels) parent record rel target).map
          ((along es).nested t g.schema (g.sees ctx t beyond levels) target e.path)) := by
    simp only [Embeds.carried, hstep, nested_after_eq_along t hes.single hdepth htarget,
      Relationship.arrange, hmany, if_true]
  obtain ⟨hnew, hother⟩ := get?_after_concat hes.single done he
  have hbefore := Embeds.single_only hes.single fun d =>
    !d.isScoped || done.any (·.path = d.path)
  have hafter := Embeds.single_only hes.single fun d =>
    !d.isScoped || (done ++ [e]).any (·.path = d.path)
  rw [run_eq t beyond hlt hfiled h (Schema.resource?_of_at? hroot hat)]
  · simp only [← hcarried, List.map_map]
    refine congrArg Except.ok (List.map_congr_left fun record _ => ?_)
    exact Embeds.modifyAt_nested hbefore hafter hat hpath hnew hother rfl rfl record
  · intro row hrow
    obtain ⟨start, hstart, hrow⟩ := Row.mem_rowsAt.1 hrow
    obtain ⟨record, hrecord, rfl⟩ := List.mem_map.1 hstart
    exact Embeds.record_mem_rowsOf hbefore hat (hrecords record hrecord) hrow

/-- All fetches together, from the top down, make the rows carry all embeds. -/
theorem foldlM_run (hlt : requiredDepth < levels) (hfiled : t.Filed g.schema)
    (hes : es.Sound (Embed.Admitted g.schema root)) (hroot : g.schema.resource? root.name = some root)
    {todo : List Embed} {fetches : List ScopedFetch}
    (hfetches : todo.mapM (g.scopedFetch ctx root es) = .ok fetches)
    (hscoped : ∀ e ∈ todo, e ∈ es.list ∧ e.isScoped = true) (done : List Embed)
    (hsorted : (done ++ todo).Pairwise fun d e => d.depth ≤ e.depth) {records : List Record}
    (hrecords : ∀ record ∈ records, record ∈ t.rowsOf root.name) :
    fetches.foldlM (fun rows s => s.run t g.schema rows)
        (records.map ((after es done).nested t g.schema (g.sees ctx t beyond levels) root []))
      = .ok (records.map
        ((after es (done ++ todo)).nested t g.schema (g.sees ctx t beyond levels) root [])) := by
  replace hfetches := Except.mapM_eq_ok.1 hfetches
  induction hfetches generalizing done with
  | nil =>
    rw [List.append_nil]
    rfl
  | @cons e s todo fetches hs _ ih =>
    obtain ⟨he, hescoped⟩ := hscoped e List.mem_cons_self
    have hdepth : ∀ d ∈ done, d.depth ≤ e.depth := fun d hd =>
      (List.pairwise_append.1 hsorted).2.2 d hd e List.mem_cons_self
    rw [List.foldlM_cons, run_scopedFetch t beyond hlt hfiled hes hroot hs he hescoped hdepth hrecords]
    have hsplit : done ++ e :: todo = done ++ [e] ++ todo := by simp
    rw [hsplit] at hsorted ⊢
    exact ih (fun d hd => hscoped d (List.mem_cons_of_mem e hd)) (done ++ [e]) hsorted

end Registry

end NestedResources
