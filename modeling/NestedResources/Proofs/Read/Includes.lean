import NestedResources.Proofs.Read.Nested
import NestedResources.Proofs.Store.Filed
import NestedResources.Read.Reading

/-!
# Fetching embeds along

The includes of a reading bring along what its embeds without sorts and windows show: a row that is
built with them is the row that carries those embeds (`Registry.buildRow_includesBelow`).
-/
namespace NestedResources

theorem Tables.relate_eq_ok {rel : Relationship} {build : Record → Except Error Row}
    {f : Record → Row} {members : List Record} (h : ∀ member ∈ members, build member = .ok (f member)) :
    relate rel build members = .ok (rel.arrange (members.map f)) := by
  unfold relate Relationship.arrange
  split
  · rw [Except.mapM_of_forall h]
    rfl
  · cases members with
    | nil => rfl
    | cons member rest =>
      change (build member).map Related.one = _
      rw [h member List.mem_cons_self]
      rfl

theorem Resource.requireRelationship_eq_ok {r : Resource} {name : String} {rel : Relationship} :
    r.requireRelationship name = .ok rel ↔ r.relationship? name = some rel := by
  unfold requireRelationship
  cases r.relationship? name <;> simp

theorem Embed.isScoped_eq_false {e : Embed} (h : e.isScoped = false) :
    e.sorts = [] ∧ e.window = .unbounded := by
  obtain ⟨_, _, _, _, sorts, ⟨offset, limit⟩⟩ := e
  simp only [isScoped, Window.isUnbounded, Bool.or_eq_false_iff, Bool.not_eq_false',
    List.isEmpty_iff, Bool.and_eq_true, decide_eq_true_eq, Option.isNone_iff_eq_none] at h
  obtain ⟨rfl, rfl, rfl⟩ := h
  exact ⟨rfl, rfl⟩

@[simp] theorem Window.apply_unbounded {α : Type} (items : List α) :
    Window.unbounded.apply items = items := rfl

theorem Window.mem_of_mem_apply {α : Type} {w : Window} {items : List α} {a : α}
    (h : a ∈ w.apply items) : a ∈ items := by
  unfold apply at h
  split at h
  · exact List.mem_of_mem_drop (List.mem_of_mem_take h)
  · exact List.mem_of_mem_drop h

/-- What an embed shows are rows of the target. -/
theorem Embed.mem_rowsOf_of_mem_shown {e : Embed} {t : Tables} {schema : Schema}
    {sees : Resource → Record → Bool} {r target : Resource} {rel : Relationship} {name : String}
    {record member : Record} (hstep : schema.step? r name = some (rel, target))
    (h : member ∈ e.shown t schema sees r record rel target) : member ∈ t.rowsOf target.name := by
  have hm := Sorting.mem_sort.1 (Window.mem_of_mem_apply h)
  exact Tables.mem_rowsOf_of_mem_members (Schema.step?_eq_some.1 hstep).2 (List.mem_filter.1 hm).1

namespace Registry

variable {g : Registry} {ctx : Context} (t : Tables) (beyond : Resource → Record → Bool) {levels : Nat}

/-- The compiled filter, sorts and window of an embed select what it shows. -/
theorem apply_select_eq_shown (hlt : requiredDepth < levels) {e : Embed} {name : String}
    {target : Resource} (htarget : g.schema.resource? name = some target) {p : Option Predicate}
    (hp : g.restricted ctx target e.filter = .ok p) {cs : List ColumnSort}
    (hcs : e.sorts.mapM (SortKey.column target) = .ok cs) (r : Resource) (record : Record)
    (rel : Relationship) :
    e.window.apply (t.select g.schema target (t.members g.schema r record rel) p cs)
      = e.shown t g.schema (g.sees ctx t beyond levels) r record rel target := by
  have hpasses := funext (passes_restricted t beyond hlt htarget hp)
  rw [Embed.shown, Tables.select, Resource.columns_of_mapM hcs, hpasses]

/-- The include that an embed is compiled into. -/
def IncludeOf (g : Registry) (ctx : Context) (es : Embeds) (steps : Nat) (r : Resource) (e : Embed)
    (i : Include) : Prop :=
  ∃ rel target p inner, g.schema.step? r (e.path.getLastD "") = some (rel, target) ∧
    g.restricted ctx target e.filter = .ok p ∧
    g.includesBelow ctx es steps target e.path = .ok inner ∧ i = .mk (e.path.getLastD "") p [] inner

theorem includesBelow_eq_ok {es : Embeds} {steps : Nat} {r : Resource} {path : List String}
    {includes : List Include} (h : g.includesBelow ctx es (steps + 1) r path = .ok includes) :
    List.Forall₂ (g.IncludeOf ctx es steps r) ((es.childrenOf path).filter (!·.isScoped)) includes := by
  refine (Except.mapM_eq_ok.1 h).imp fun e i hi => ?_
  dsimp only at hi
  split at hi
  · cases hi
  · rename_i rel hrel
    obtain ⟨target, htarget, hi⟩ := Except.bind_eq_ok.1 hi
    obtain ⟨p, hp, hi⟩ := Except.bind_eq_ok.1 hi
    obtain ⟨inner, hinner, hi⟩ := Except.bind_eq_ok.1 hi
    cases hi
    exact ⟨rel, target, p, inner, Schema.step?_eq_some.2 ⟨hrel, Schema.require_eq_ok.1 htarget⟩, hp,
      hinner, rfl⟩

/-- The embeds that are fetched along. -/
abbrev along (es : Embeds) : Embeds := es.only (!·.isScoped)

/-- An include is built into what its embed carries, if the rows below it are. -/
theorem buildInclude_eq (hlt : requiredDepth < levels) {es : Embeds} {steps : Nat} {r : Resource}
    {e : Embed} {i : Include} (hi : g.IncludeOf ctx es steps r e i) (hscoped : e.isScoped = false)
    (hbelow : ∀ {target : Resource} {inner : List Include},
      g.includesBelow ctx es steps target e.path = .ok inner → ∀ member,
        t.buildRow g.schema target (.mk member []) inner
          = .ok ((along es).nested t g.schema (g.sees ctx t beyond levels) target e.path member))
    (record : Record) :
    t.buildInclude g.schema r record i = .ok (e.path.getLastD "",
      (along es).carried t g.schema (g.sees ctx t beyond levels) r record e) := by
  obtain ⟨rel, target, p, inner, hstep, hp, hinner, rfl⟩ := hi
  obtain ⟨hrel, htarget⟩ := Schema.step?_eq_some.1 hstep
  obtain ⟨hsorts, hwindow⟩ := Embed.isScoped_eq_false hscoped
  have hcolumns : e.sorts.mapM (SortKey.column target) = .ok [] := by
    rw [hsorts]
    rfl
  have hshown := apply_select_eq_shown t beyond hlt htarget hp hcolumns r record rel
  rw [hwindow, Window.apply_unbounded] at hshown
  rw [Tables.buildInclude]
  refine Except.bind_eq_ok.2 ⟨rel, Resource.requireRelationship_eq_ok.2 hrel, ?_⟩
  refine Except.bind_eq_ok.2 ⟨target, Schema.require_eq_ok.2 htarget, ?_⟩
  refine Except.bind_eq_ok.2 ⟨_, Tables.relate_eq_ok fun member _ => hbelow hinner member, ?_⟩
  rw [hshown, Embeds.carried, hstep, Resource.name_of_relationship? hrel]

/-- A row that is built with the includes of a resource carries the embeds that are fetched along. -/
theorem buildRow_includesBelow (hlt : requiredDepth < levels) {es : Embeds} {steps : Nat}
    {r : Resource} {path : List String} {includes : List Include}
    (hheight : es.height ≤ path.length + steps)
    (h : g.includesBelow ctx es steps r path = .ok includes) (record : Record) :
    t.buildRow g.schema r (.mk record []) includes
      = .ok ((along es).nested t g.schema (g.sees ctx t beyond levels) r path record) := by
  induction steps generalizing r path includes record with
  | zero =>
    cases h
    rw [Embeds.nested_eq, Embeds.childrenOf_only, Embeds.childrenOf_eq_nil hheight]
    rfl
  | succ steps ih =>
    rw [Embeds.nested_eq, Embeds.childrenOf_only]
    have hchildren : ∀ e ∈ (es.childrenOf path).filter (!·.isScoped),
        e.isScoped = false ∧ e.path.length = path.length + 1 := by
      intro e he
      obtain ⟨he, hscoped⟩ := List.mem_filter.1 he
      obtain ⟨-, name, hname⟩ := Embeds.mem_childrenOf.1 he
      exact ⟨by simpa using hscoped, by rw [hname, List.length_append, List.length_singleton]⟩
    replace h := includesBelow_eq_ok h
    generalize (es.childrenOf path).filter (!·.isScoped) = children at h hchildren
    suffices hacc : ∀ carried : List (String × Related),
        t.buildRow g.schema r (.mk record carried) includes = .ok (.mk record
          ((children.map fun e => (e.path.getLastD "", (along es).carried t g.schema
            (g.sees ctx t beyond levels) r record e)).foldl
              (fun acc e => Entries.insert e.1 e.2 acc) carried)) from hacc []
    induction h with
    | nil => exact fun carried => rfl
    | @cons e i children includes hi _ hrest =>
      intro carried
      obtain ⟨hscoped, hlength⟩ := hchildren e List.mem_cons_self
      have hbuild := buildInclude_eq t beyond hlt hi hscoped
        (fun hinner member => ih (by omega) hinner member) record
      rw [Tables.buildRow, Row.record, hbuild]
      exact hrest (fun d hd => hchildren d (List.mem_cons_of_mem e hd)) _

end Registry

end NestedResources
