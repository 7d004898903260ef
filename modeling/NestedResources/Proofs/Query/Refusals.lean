import NestedResources.Proofs.Filter.Grammar
import NestedResources.Query.OfParams
import NestedResources.Read.Reading

/-!
# Reading refuses no method

A request is refused for its method where the path does not take it or where a gate refuses it. Nothing
that is read for a query, its parameters, its filters or its rows, fails for that reason.
-/
namespace NestedResources

/-- Whether an error refuses the method of a request, for its path or by a gate. -/
@[grind] def Error.refusesMethod : Error → Bool
  | .methodNotAllowed _ _ | .denied _ (.method _) => true
  | .denied _ (.change _ _) | .malformedQuery _ _ | .invalidField _ _ | .tooComplex _
  | .duplicateEmbed _ | .notFound _ _ | .unprocessable _ | .badRequest _ | .conflict _
  | .invalidSchema _ _ | .store _ => false

/-- A step that fails for other reasons than the method, if at all. -/
def Tolerant {α : Type} (x : Except Error α) : Prop := ∀ e, x = .error e → e.refusesMethod = false

section

variable {α β : Type} {x : Except Error α} {f : α → Except Error β}

@[simp, grind .] theorem tolerant_ok (a : α) : Tolerant (.ok a : Except Error α) := fun _ h => by cases h

@[simp, grind .] theorem tolerant_pure (a : α) : Tolerant (pure a : Except Error α) := tolerant_ok a

@[simp, grind =] theorem tolerant_error {e : Error} :
    Tolerant (.error e : Except Error α) ↔ e.refusesMethod = false :=
  ⟨fun h => h e rfl, fun h _ he => Except.error.inj he ▸ h⟩

@[simp, grind =] theorem tolerant_throw {e : Error} :
    Tolerant (throw e : Except Error α) ↔ e.refusesMethod = false := tolerant_error

@[grind ←] theorem Tolerant.bind (hx : Tolerant x) (hf : ∀ a, Tolerant (f a)) : Tolerant (x >>= f) := by
  cases x with
  | error e => exact tolerant_error.2 (tolerant_error.1 hx)
  | ok a => exact hf a

@[grind =] theorem Except.throw_bind (e : Error) : (throw e : Except Error α) >>= f = throw e := rfl

@[grind =] theorem Except.pure_bind (a : α) : (pure a : Except Error α) >>= f = f a := rfl

@[simp, grind =] theorem tolerant_map {g : α → β} : Tolerant (x.map g) ↔ Tolerant x := by
  cases x <;> simp [Except.map]

@[grind .] theorem Tolerant.mapM (h : ∀ a, Tolerant (f a)) (items : List α) : Tolerant (items.mapM f) := by
  induction items with
  | nil => exact tolerant_ok []
  | cons a items ih =>
    rw [List.mapM_cons]
    grind

@[grind .] theorem Tolerant.foldlM {f : β → α → Except Error β} (h : ∀ b a, Tolerant (f b a)) (items : List α)
    (b : β) : Tolerant (items.foldlM f b) := by
  induction items generalizing b with
  | nil => exact tolerant_ok b
  | cons a items ih =>
    rw [List.foldlM_cons]
    exact (h b a).bind fun c => ih c

@[grind .] theorem Tolerant.forM {f : α → Except Error Unit} (h : ∀ a, Tolerant (f a)) (items : List α) :
    Tolerant (items.forM f) := by
  induction items with
  | nil => exact tolerant_ok ()
  | cons a items ih =>
    change Tolerant (f a >>= fun _ => items.forM f)
    grind

end

@[grind .] theorem tolerant_require (s : Schema) (name : String) : Tolerant (s.require name) := by
  unfold Schema.require
  grind

@[grind .] theorem tolerant_cross (s : Schema) (display : String) (r : Resource) (path : List String) :
    Tolerant (s.cross display r path) := by
  induction path generalizing r with
  | nil => grind [Schema.cross]
  | cons name path ih => grind [Schema.cross]

@[grind .] theorem tolerant_fieldPath (s : Schema) (r : Resource) (path : String) :
    Tolerant (s.fieldPath r path) := by
  unfold Schema.fieldPath
  grind

namespace Structured

@[grind .] theorem tolerant_step (site : Site) (s : State) (t : Task) : Tolerant (step site s t) := by
  have hspend : ∀ n, Tolerant (site.spend n) := fun n => by
    unfold Site.spend
    grind
  have hrefuse : ∀ {α} fault, Tolerant (site.refuse fault : Except Error α) := fun fault => by
    unfold Site.refuse
    grind
  have hleaf : ∀ path operator value, Tolerant (leaf path operator value) := fun _ _ _ => by
    unfold leaf
    grind
  have hliteral : ∀ path value n, Tolerant (literal site path value n) := fun _ _ _ => by
    unfold literal
    grind
  have hcomparisons : ∀ path members n, Tolerant (comparisons site path members n) := fun path members => by
    induction members with
    | nil => grind [comparisons]
    | cons e members ih => grind [comparisons]
  have hmap : ∀ path members n, Tolerant (operatorMap site path members n) := fun path members n => by
    unfold operatorMap
    grind
  cases t with
  | scope base members =>
    unfold step enterScope
    grind
  | member base key value =>
    unfold step
    have : ∀ c,  Tolerant (enterCombinator site base key c value s) := fun c => by
      unfold enterCombinator
      grind
    have :  Tolerant (enterPath site (base ++ key) value s) := by
      unfold enterPath
      grind
    grind
  | build =>
    unfold step
    grind

@[grind .] theorem tolerant_run (site : Site) (s : State) (tasks : List Task) :
    Tolerant (run site s tasks) := by
  induction s, tasks using run.induct site with
  | case1 s => simp [run_nil]
  | case2 s t tasks e h =>
    rw [run_cons, h]
    exact tolerant_error.2 (tolerant_step site s t e h)
  | case3 s t tasks next h ih =>
    rw [run_cons, h]
    exact ih

end Structured

@[grind .] theorem tolerant_readStructured (parameter : String) (limit : Nat) (text : String) :
    Tolerant (Filter.readStructured parameter limit text) := by
  unfold Filter.readStructured Filter.ofStructured Structured.Site.refuse
  grind

/-! ## Queries -/

namespace QuerySite

variable (site : QuerySite) (r : Resource)

@[grind .] theorem tolerant_window (params : Params) (ceiling : Option UInt64) :
    Tolerant (Window.ofParams params ceiling) := by
  have hpositive : ∀ parameter, Tolerant (Window.positiveParameter params parameter) := by
    unfold Window.positiveParameter
    grind
  unfold Window.ofParams
  refine .bind (hpositive _) fun limit => ?_
  dsimp only
  repeat' split
  all_goals grind

@[grind .] theorem tolerant_structuredFilter (parameter raw : String) :
    Tolerant (site.structuredFilter r parameter raw) := by
  unfold structuredFilter checkFilter
  grind

@[grind .] theorem tolerant_flatFilter (key : String) (values : List String) :
    Tolerant (site.flatFilter r key values) := by
  unfold flatFilter
  grind

@[grind .] theorem tolerant_readSorts (parameter raw : String) :
    Tolerant (readSorts r parameter raw) := by
  unfold readSorts
  grind

@[grind .] theorem tolerant_addEmbed (embeds : Embeds) (entry : String) :
    Tolerant (site.addEmbed r embeds entry) := by
  have hpath : ∀ segments r path, Tolerant (site.embedPath entry r path segments) := by
    intro segments
    induction segments with
    | nil => grind [embedPath]
    | cons segment segments ih => grind [embedPath]
  unfold addEmbed Embeds.request
  grind

@[grind .] theorem tolerant_readOption (rel : Relationship) (key : String) (path values : List String)
    (option : EmbedOption) : Tolerant (site.readOption rel r key path values option) := by
  have hsingle : Tolerant (singleValue key path values) := by
    unfold singleValue
    grind
  have hmany : ∀ verb, Tolerant (refuseToOne key verb rel) := by
    unfold refuseToOne
    grind
  have hlimit : ∀ raw, Tolerant (site.readLimit r key raw) := by
    unfold readLimit
    grind
  unfold readOption
  grind

@[grind .] theorem tolerant_setOption (embeds : Embeds) (key : String) (path values : List String)
    (option : EmbedOption) : Tolerant (site.setOption r embeds key path values option) := by
  unfold setOption
  grind

@[grind .] theorem tolerant_readKeys (params : Params) (keys : List String) (embeds : Embeds) :
    Tolerant (site.readKeys r params keys embeds) := by
  have hkey : ∀ key, Tolerant (EmbedOption.ofKey? key) := by
    unfold EmbedOption.ofKey? EmbedOption.ofMarker
    grind
  induction keys generalizing embeds with
  | nil => grind [readKeys]
  | cons key keys ih =>
    unfold readKeys
    split
    · exact ih embeds
    · refine .bind (hkey key) fun option => ?_
      split
      · exact .bind (site.tolerant_setOption r _ _ _ _ _) fun embeds => ih embeds
      · exact .bind (site.tolerant_flatFilter r _ _) fun f => .bind (ih embeds) fun _ => tolerant_pure _

@[grind .] theorem tolerant_read (params : Params) : Tolerant (site.read r params) := by
  have hfield : ∀ q entry, Tolerant (site.addField r q entry) := by
    unfold addField
    grind
  have hfilter : ∀ flat raws, Tolerant (site.readFilter r flat raws) := by
    unfold readFilter
    grind
  refine .bind (tolerant_window _ _) fun window => ?_
  refine .bind (.foldlM (fun embeds entry => site.tolerant_addEmbed r embeds entry) _ _) fun embeds => ?_
  refine .bind (site.tolerant_readKeys r _ _ _) fun (embeds, flat) => ?_
  refine .bind (hfilter _ _) fun filter => .bind (.foldlM hfield _ _) fun q => ?_
  split
  · exact tolerant_pure _
  · exact .bind (tolerant_readSorts r _ _) fun _ => tolerant_pure _

end QuerySite

/-! ## Compiling and reading -/

namespace Filter

variable (schema : Schema) {required : Resource → Except Error (Option Predicate)}

@[grind .] theorem tolerant_compileLeaf (field : Field) (c : Comparison) : Tolerant (compileLeaf field c) := by
  unfold compileLeaf
  grind

theorem tolerant_behind (h : ∀ r, Tolerant (required r)) (hops : List Hop) (p : Predicate) :
    Tolerant (behind schema required hops p) := by
  induction hops with
  | nil => exact tolerant_ok p
  | cons hop hops ih => grind [behind]

mutual

theorem tolerant_compileWith (h : ∀ r, Tolerant (required r)) (r : Resource) :
    ∀ f : Filter, Tolerant (f.compileWith schema required r)
  | .and children | .or children | .not children =>
    tolerant_map.2 (tolerant_compileAll h r children)
  | .compare c => .bind (tolerant_fieldPath schema r c.path) fun path =>
    .bind (tolerant_compileLeaf _ c) fun leaf => tolerant_behind schema h path.hops leaf

theorem tolerant_compileAll (h : ∀ r, Tolerant (required r)) (r : Resource) :
    ∀ fs : List Filter, Tolerant (compileAll schema required r fs)
  | [] => tolerant_ok []
  | f :: fs => .bind (tolerant_compileWith h r f) fun _ =>
    .bind (tolerant_compileAll h r fs) fun _ => tolerant_ok _

end

end Filter

namespace Registry

variable (g : Registry) (ctx : Context)

theorem tolerant_requiredWithin (steps : Nat) (r : Resource) : Tolerant (g.requiredWithin ctx steps r) := by
  match steps with
  | 0 => exact tolerant_error.2 rfl
  | 1 =>
    unfold requiredWithin
    split
    · exact tolerant_ok none
    · exact .bind (tolerant_require _ _) fun found =>
        tolerant_map.2 (Filter.tolerant_compileWith _ (fun _ => tolerant_error.2 rfl) found _)
  | steps + 2 =>
    unfold requiredWithin
    split
    · exact tolerant_ok none
    · exact .bind (tolerant_require _ _) fun found =>
        tolerant_map.2 (Filter.tolerant_compileWith _ (tolerant_requiredWithin steps) found _)

@[grind .] theorem tolerant_required (r : Resource) : Tolerant (g.required ctx r) :=
  g.tolerant_requiredWithin ctx _ r

@[grind .] theorem tolerant_compile (r : Resource) (f : Filter) : Tolerant (g.compile ctx r f) :=
  Filter.tolerant_compileWith _ (g.tolerant_requiredWithin ctx _) r f

@[grind .] theorem tolerant_restricted (r : Resource) (f : Option Filter) : Tolerant (g.restricted ctx r f) := by
  unfold restricted
  grind

@[grind .] theorem tolerant_column (r : Resource) (s : SortKey) : Tolerant (s.column r) := by
  unfold SortKey.column
  grind

theorem tolerant_includesBelow (embeds : Embeds) (levels : Nat) (parent : Resource) (path : List String) :
    Tolerant (g.includesBelow ctx embeds levels parent path) := by
  induction levels generalizing parent path with
  | zero => exact tolerant_ok []
  | succ levels ih =>
    refine .mapM (fun e => ?_) _
    dsimp only
    grind

theorem tolerant_resourceAt (path segments : List String) (r : Resource) :
    Tolerant (g.resourceAt path r segments) := by
  induction segments generalizing r with
  | nil => exact tolerant_ok r
  | cons segment segments ih => grind [resourceAt]

theorem tolerant_scopedFetch (root : Resource) (embeds : Embeds) (e : Embed) :
    Tolerant (g.scopedFetch ctx root embeds e) := by
  refine .bind (g.tolerant_resourceAt _ _ root) fun parent => ?_
  split
  · simp [Error.refusesMethod]
  · refine .bind (tolerant_require _ _) fun target => .bind (g.tolerant_restricted ctx target _) fun _ => ?_
    refine .bind (.mapM (tolerant_column target) _) fun _ => ?_
    exact .bind (g.tolerant_includesBelow ctx embeds _ target _) fun _ => tolerant_pure _

theorem tolerant_reading (resource : String) (q : Query) (scope : Option Predicate) :
    Tolerant (g.reading ctx resource q scope) := by
  have hvalidate : Tolerant q.embeds.validate := by
    have hfault : ∀ es seen e, Embeds.fault? seen es = some e → e.refusesMethod = false := by
      intro es
      induction es with
      | nil => exact nofun
      | cons e es ih => grind [Embeds.fault?]
    unfold Embeds.validate
    grind
  refine .bind (tolerant_require _ _) fun r => .bind hvalidate fun embeds => ?_
  refine .bind (g.tolerant_restricted ctx r _) fun _ => .bind (.mapM (tolerant_column r) _) fun _ => ?_
  refine .bind (g.tolerant_includesBelow ctx embeds _ r _) fun _ => ?_
  exact .bind (.mapM (g.tolerant_scopedFetch ctx r embeds) _) fun _ => tolerant_pure _

end Registry

namespace Tables

variable (t : Tables) (schema : Schema)

@[grind .] theorem tolerant_requireRelationship (r : Resource) (name : String) :
    Tolerant (r.requireRelationship name) := by
  unfold Resource.requireRelationship
  grind

theorem tolerant_relate (rel : Relationship) {build : Record → Except Error Row}
    (h : ∀ record, Tolerant (build record)) (members : List Record) : Tolerant (relate rel build members) := by
  unfold relate
  split
  · exact tolerant_map.2 (.mapM h members)
  · grind

mutual

theorem tolerant_buildRow (r : Resource) (row : Row) : ∀ is : List Include, Tolerant (t.buildRow schema r row is)
  | [] => tolerant_ok row
  | i :: is => .bind (tolerant_buildInclude r row.record i) fun (name, related) =>
    tolerant_buildRow r (row.attach name related) is
termination_by is => sizeOf is

theorem tolerant_buildInclude (r : Resource) (record : Record) :
    ∀ i : Include, Tolerant (t.buildInclude schema r record i)
  | .mk name predicate sorts includes => .bind (tolerant_requireRelationship r name) fun rel =>
    .bind (tolerant_require schema _) fun target =>
    .bind (tolerant_relate rel (fun member => tolerant_buildRow target (.mk member []) includes) _) fun _ =>
    tolerant_ok _
termination_by i => sizeOf i

end

@[grind .] theorem tolerant_fetch (request : Fetch) : Tolerant (t.fetch schema request) :=
  .bind (tolerant_require schema _) fun r => .mapM (fun _ => t.tolerant_buildRow schema r _ _) _

@[grind .] theorem tolerant_fetchRelated (request : RelatedFetch) : Tolerant (t.fetchRelated schema request) := by
  refine .bind (tolerant_require schema _) fun r => .bind (tolerant_requireRelationship r _) fun rel => ?_
  refine .bind (tolerant_require schema _) fun target => .mapM (fun parent => ?_) _
  dsimp only
  split
  · exact tolerant_ok _
  · exact .bind (.mapM (fun _ => t.tolerant_buildRow schema target _ _) _) fun _ => tolerant_ok _

@[grind .] theorem tolerant_count (resource : String) (predicate : Option Predicate) :
    Tolerant (t.count schema resource predicate) :=
  .bind (tolerant_require schema _) fun _ => tolerant_ok _

end Tables

namespace Reading

variable (q : Reading) (t : Tables) (schema : Schema)

theorem tolerant_rows : Tolerant (q.rows t schema) := by
  refine .bind (t.tolerant_fetch schema _) fun rows => .foldlM (fun rows s => ?_) _ _
  unfold ScopedFetch.run
  grind

end Reading

end NestedResources
