import NestedResources.Demo.Music
import NestedResources.Filter.Compile
import NestedResources.Proofs.Store.Referential

/-!
# How deep required filters nest

Compiling follows required filters into each other: a filter crosses relationships, and every resource
that is crossed to may require a filter that crosses others. A required filter takes one of
`requiredDepth` steps and the crossing to the next one takes another, so that compiling ends, also where
filters lead back to themselves, and filters that are valid otherwise are too complex from the fourth one
below the first on, if that one still crosses (`Registry.tooComplex_iff_descends`).
-/
namespace NestedResources

/-- A step that fails with `e` where `P` holds, and ends well elsewhere. -/
def FailsIff {α : Type} (e : Error) (x : Except Error α) (P : Prop) : Prop :=
  (P → x = .error e) ∧ (¬P → ∃ a, x = .ok a)

namespace FailsIff

variable {α β : Type} {e : Error} {x : Except Error α} {P Q : Prop}

theorem of_eq_ok {a : α} (hx : x = .ok a) (hP : ¬P) : FailsIff e x P :=
  ⟨fun h => absurd h hP, fun _ => ⟨a, hx⟩⟩

theorem congr (h : FailsIff e x P) (hPQ : P ↔ Q) : FailsIff e x Q := propext hPQ ▸ h

theorem eq_error_iff (h : FailsIff e x P) : x = .error e ↔ P := by
  refine ⟨fun hx => ?_, h.1⟩
  by_contra hP
  obtain ⟨a, ha⟩ := h.2 hP
  cases hx.symm.trans ha

theorem map {f : α → β} (h : FailsIff e x P) : FailsIff e (x.map f) P := by
  refine ⟨fun hP => ?_, fun hP => ?_⟩
  · rw [h.1 hP]
    rfl
  · obtain ⟨a, ha⟩ := h.2 hP
    exact ⟨f a, by rw [ha]; rfl⟩

theorem bind {f : α → Except Error β} (hx : FailsIff e x P)
    (hf : ∀ a, x = .ok a → FailsIff e (f a) Q) : FailsIff e (x >>= f) (P ∨ Q) := by
  by_cases hP : P
  · have herror : x >>= f = .error e := Except.bind_eq_error.2 (.inl (hx.1 hP))
    exact ⟨fun _ => herror, fun hnone => absurd (.inl hP) hnone⟩
  · obtain ⟨a, ha⟩ := hx.2 hP
    rw [Except.bind_of_ok ha]
    exact (hf a ha).congr (or_iff_right hP).symm

/-- A step that ends well decides nothing. -/
theorem bind_of_ok {a : α} {f : α → Except Error β} (hx : x = .ok a) (hf : FailsIff e (f a) Q) :
    FailsIff e (x >>= f) Q := by
  rwa [Except.bind_of_ok hx]

end FailsIff

/-! ## What a filter crosses to -/

/-- The resources that a chain of relationships leads to, one after the other. -/
def Schema.along (s : Schema) (r : Resource) : List String → List Resource
  | [] => []
  | name :: rest => match s.step? r name with
    | none => []
    | some (_, target) => target :: s.along target rest

namespace Filter

/-- The resources that the paths of comparisons cross to on their way to a field. -/
def crossedBy (s : Schema) (r : Resource) (cs : List Comparison) : List Resource :=
  cs.flatMap fun c => s.along r (Text.fields '.' c.path).dropLast

def crossed (s : Schema) (r : Resource) (f : Filter) : List Resource := crossedBy s r f.leaves

/-- Whether a filter compiles if nothing is required of what it crosses to: its paths resolve and its
values fit. -/
def Valid (s : Schema) (r : Resource) (f : Filter) : Prop :=
  (f.compileWith s (fun _ => .ok none) r).isOk = true

instance (s : Schema) (r : Resource) (f : Filter) : Decidable (f.Valid s r) :=
  inferInstanceAs (Decidable (_ = true))

variable {s : Schema} {required : Resource → Except Error (Option Predicate)} {r : Resource} {e : Error}
  {Q : Resource → Prop}

/-- Crossings fail where what they cross to requires a filter that fails. -/
theorem failsIff_behind (hrequired : ∀ t, s.resource? t.name = some t → FailsIff e (required t) (Q t))
    {display : String} {last : Resource} {path : List String} {hops : List Hop}
    (hcross : s.cross display r path = .ok (hops, last)) (leaf : Predicate) :
    FailsIff e (behind s required hops leaf) (∃ t ∈ s.along r path, Q t) := by
  induction path generalizing r hops with
  | nil =>
    cases hcross
    exact .of_eq_ok rfl nofun
  | cons name rest ih =>
    unfold Schema.cross at hcross
    split at hcross
    · cases hcross
    · rename_i rel hrel
      obtain ⟨target, htarget, hcross⟩ := Except.bind_eq_ok.1 hcross
      obtain ⟨⟨hops', last'⟩, hrest, hcross⟩ := Except.bind_eq_ok.1 hcross
      cases hcross
      have hresource := Schema.require_eq_ok.1 htarget
      have halong : s.along r (name :: rest) = target :: s.along target rest := by
        rw [Schema.along, Schema.step?_eq_some.2 ⟨hrel, hresource⟩]
      have hfilter : FailsIff e (required target) (Q target) :=
        hrequired target (Schema.name_of_resource? hresource ▸ hresource)
      simp only [halong, List.mem_cons, or_and_right, exists_or, exists_eq_left]
      refine ((ih hrest).bind fun inner _ => ?_).congr or_comm
      refine .bind_of_ok htarget ?_
      exact (hfilter.bind fun _ _ => .of_eq_ok rfl not_false).congr (or_false _).to_iff

/-- A comparison that is valid fails where one of its crossings does. -/
theorem failsIff_compare (hrequired : ∀ t, s.resource? t.name = some t → FailsIff e (required t) (Q t))
    {c : Comparison} (h : (compare c).Valid s r) :
    FailsIff e ((compare c).compileWith s required r) (∃ t ∈ (compare c).crossed s r, Q t) := by
  obtain ⟨p, hp⟩ := Except.exists_of_isOk h
  rw [compileWith] at hp ⊢
  obtain ⟨path, hpath, hp⟩ := Except.bind_eq_ok.1 hp
  obtain ⟨leaf, hleaf, -⟩ := Except.bind_eq_ok.1 hp
  have hcrossed : (compare c).crossed s r = s.along r (Text.fields '.' c.path).dropLast :=
    List.flatMap_singleton ..
  rw [hcrossed]
  exact .bind_of_ok hpath (.bind_of_ok hleaf (failsIff_behind hrequired (Schema.fieldPath_eq_ok hpath).1 leaf))

mutual

/-- A valid filter fails to compile where one of its crossings does. -/
theorem failsIff_compileWith (hrequired : ∀ t, s.resource? t.name = some t → FailsIff e (required t) (Q t)) :
    ∀ f : Filter, f.Valid s r → FailsIff e (f.compileWith s required r) (∃ t ∈ f.crossed s r, Q t)
  | .and children, h | .or children, h | .not children, h => by
    obtain ⟨p, hp⟩ := Except.exists_of_isOk h
    obtain ⟨ps, hps, -⟩ := Except.map_eq_ok.1 hp
    exact (failsIff_compileAll hrequired children hps).map
  | .compare _, h => failsIff_compare hrequired h

theorem failsIff_compileAll (hrequired : ∀ t, s.resource? t.name = some t → FailsIff e (required t) (Q t)) :
    ∀ (fs : List Filter) {ps : List Predicate}, compileAll s (fun _ => .ok none) r fs = .ok ps →
      FailsIff e (compileAll s required r fs) (∃ t ∈ crossedBy s r (leavesAll fs), Q t)
  | [], _, _ => .of_eq_ok rfl nofun
  | f :: fs, _, h => by
    obtain ⟨p, hp, h⟩ := Except.bind_eq_ok.1 h
    obtain ⟨rest, hrest, -⟩ := Except.bind_eq_ok.1 h
    have hvalid : f.Valid s r := by rw [Valid, hp]; rfl
    have hfirst := failsIff_compileWith hrequired f hvalid
    have hothers := failsIff_compileAll hrequired fs hrest
    have hcrossed : (∃ t ∈ crossedBy s r (leavesAll (f :: fs)), Q t) ↔
        (∃ t ∈ f.crossed s r, Q t) ∨ ∃ t ∈ crossedBy s r (leavesAll fs), Q t := by
      rw [leavesAll, crossedBy, List.flatMap_append]
      simp only [List.mem_append, or_and_right, exists_or]
      rfl
    refine (hfirst.bind fun _ _ => ?_).congr hcrossed.symm
    exact (hothers.bind fun _ _ => .of_eq_ok rfl not_false).congr (or_false _).to_iff

end

end Filter

/-! ## Chains of required filters -/

namespace Registry

variable {g : Registry} {ctx : Context} {r : Resource} {P Q : Resource → Prop}

/-- Whether the filters that gates require are valid, each by itself. -/
def RequiresValid (g : Registry) (ctx : Context) : Prop :=
  ∀ r ∈ g.schema.resources, ∀ f ∈ (g.gate r.name).required r ctx, f.Valid g.schema r

instance (g : Registry) (ctx : Context) : Decidable (g.RequiresValid ctx) :=
  inferInstanceAs (Decidable (∀ _ ∈ _, ∀ _ ∈ _, _))

/-- The resources that the filter required of a resource crosses to. -/
def crossed (g : Registry) (ctx : Context) (r : Resource) : List Resource :=
  match (g.gate r.name).required r ctx with
  | none => []
  | some f => f.crossed g.schema r

/-- Whether required filters, each of which crosses to the resource that requires the next one, lead in so
many crossings to a resource with `P`. -/
def Descends (g : Registry) (ctx : Context) (P : Resource → Prop) : Nat → Resource → Prop
  | 0, r => P r
  | levels + 1, r => ∃ t ∈ g.crossed ctx r, g.Descends ctx P levels t

instance decidableDescends (g : Registry) (ctx : Context) (P : Resource → Prop) [DecidablePred P] :
    (levels : Nat) → DecidablePred (g.Descends ctx P levels)
  | 0 => fun r => inferInstanceAs (Decidable (P r))
  | levels + 1 => fun _ =>
    have := decidableDescends g ctx P levels
    inferInstanceAs (Decidable (∃ _ ∈ _, _))

theorem Descends.imp {levels : Nat} (h : g.Descends ctx P levels r) (hPQ : ∀ t, P t → Q t) :
    g.Descends ctx Q levels r := by
  induction levels generalizing r with
  | zero => exact hPQ r h
  | succ levels ih =>
    obtain ⟨t, ht, h⟩ := h
    exact ⟨t, ht, ih h⟩

/-- A chain goes on from where a shorter one ends. -/
theorem descends_add {m n : Nat} :
    g.Descends ctx P (m + n) r ↔ g.Descends ctx (g.Descends ctx P n) m r := by
  induction m generalizing r with
  | zero => rw [Nat.zero_add, Descends]
  | succ m ih =>
    rw [Nat.succ_add]
    exact exists_congr fun t => and_congr_right fun _ => ih

/-- With one crossing more than a chain has, its last resource requires a filter that crosses. -/
theorem descends_succ_iff {levels : Nat} :
    g.Descends ctx (fun _ => True) (levels + 1) r ↔
      g.Descends ctx (fun last => g.crossed ctx last ≠ []) levels r := by
  rw [descends_add]
  refine ⟨fun h => h.imp ?_, fun h => h.imp ?_⟩
  · rintro last ⟨t, ht, -⟩
    exact List.ne_nil_of_mem ht
  · intro last hlast
    obtain ⟨t, ht⟩ := List.exists_mem_of_ne_nil _ hlast
    exact ⟨t, ht, trivial⟩

/-- Two steps are taken for every crossing. -/
theorem failsIff_requiredWithin (h : g.RequiresValid ctx) (steps : Nat) (r : Resource)
    (hr : g.schema.resource? r.name = some r) :
    FailsIff (.tooComplex requiredDepth) (g.requiredWithin ctx steps r)
      (g.Descends ctx (fun _ => True) ((steps + 1) / 2) r) := by
  induction steps using Nat.strongRecOn generalizing r with
  | ind steps ih =>
    cases steps with
    | zero => exact ⟨fun _ => rfl, fun hfalse => absurd trivial hfalse⟩
    | succ steps =>
      have hhalf : (steps + 1 + 1) / 2 = steps / 2 + 1 := by omega
      rw [requiredWithin.eq_def, hhalf, Descends]
      dsimp only
      cases hf : (g.gate r.name).required r ctx with
      | none =>
        refine .of_eq_ok rfl ?_
        rintro ⟨t, ht, -⟩
        simp only [crossed, hf] at ht
        cases ht
      | some f =>
        have hcrossed : g.crossed ctx r = f.crossed g.schema r := by rw [crossed, hf]
        rw [hcrossed]
        refine .bind_of_ok (Schema.require_eq_ok.2 hr) (.map ?_)
        refine Filter.failsIff_compileWith (fun t ht => ?_) f (h r (Schema.mem_resources.2 hr) f hf)
        cases steps with
        | zero => exact ⟨fun _ => rfl, fun hfalse => absurd trivial hfalse⟩
        | succ left => exact ih left (by omega) t ht

theorem failsIff_required (h : g.RequiresValid ctx) (hr : g.schema.resource? r.name = some r) :
    FailsIff (.tooComplex requiredDepth) (g.required ctx r)
      (g.Descends ctx (fun last => g.crossed ctx last ≠ []) 4 r) :=
  (failsIff_requiredWithin h (requiredDepth + 1) r hr).congr descends_succ_iff

/-- A filter of a request takes no step of its own. -/
theorem failsIff_restricted (h : g.RequiresValid ctx) (hr : g.schema.resource? r.name = some r)
    {f : Filter} (hf : f.Valid g.schema r) :
    FailsIff (.tooComplex requiredDepth) (g.restricted ctx r (some f))
      ((∃ t ∈ f.crossed g.schema r, g.Descends ctx (fun last => g.crossed ctx last ≠ []) 3 t) ∨
        g.Descends ctx (fun last => g.crossed ctx last ≠ []) 4 r) := by
  have hcompile : FailsIff (.tooComplex requiredDepth) (g.compile ctx r f)
      (∃ t ∈ f.crossed g.schema r, g.Descends ctx (fun last => g.crossed ctx last ≠ []) 3 t) :=
    Filter.failsIff_compileWith
      (fun t ht => (failsIff_requiredWithin h requiredDepth t ht).congr descends_succ_iff) f hf
  refine hcompile.map.bind fun explicit _ => ?_
  exact ((failsIff_required h hr).bind fun _ _ => .of_eq_ok rfl not_false).congr (or_false _).to_iff

/-- Compiling ends, and for filters that are valid it ends well unless they nest too deep. What a resource
requires is too complex if and only if some chain of required filters, each reached by a crossing of the one
before, goes four levels below the first and crosses once more there; so is a filter of a request on it, and
also one that crosses to such a chain of three levels. -/
theorem tooComplex_iff_descends (h : g.RequiresValid ctx) (hr : g.schema.resource? r.name = some r) :
    (g.required ctx r = .error (.tooComplex requiredDepth) ↔
      g.Descends ctx (fun last => g.crossed ctx last ≠ []) 4 r) ∧
    (¬g.Descends ctx (fun last => g.crossed ctx last ≠ []) 4 r → ∃ p, g.required ctx r = .ok p) ∧
    ∀ f : Filter, f.Valid g.schema r →
      (g.restricted ctx r (some f) = .error (.tooComplex requiredDepth) ↔
        (∃ t ∈ f.crossed g.schema r, g.Descends ctx (fun last => g.crossed ctx last ≠ []) 3 t) ∨
          g.Descends ctx (fun last => g.crossed ctx last ≠ []) 4 r) ∧
      (¬((∃ t ∈ f.crossed g.schema r, g.Descends ctx (fun last => g.crossed ctx last ≠ []) 3 t) ∨
          g.Descends ctx (fun last => g.crossed ctx last ≠ []) 4 r) →
        ∃ p, g.restricted ctx r (some f) = .ok p) := by
  have hrequired := failsIff_required h hr
  refine ⟨hrequired.eq_error_iff, hrequired.2, fun f hf => ?_⟩
  have hrestricted := failsIff_restricted h hr hf
  exact ⟨hrestricted.eq_error_iff, hrestricted.2⟩

end Registry

namespace Music

/-- A kind of place that stands within a place of another kind. -/
def standing (name target : String) : Resource where
  name := name
  identity := ["number"]
  fields := [key "number", { field "parent" .integer with optional := true }]
  relationships := [{
    name := "within", target, cardinality := .manyToOne, join := .foreignKey ["parent"] ["number"] }]

def crates : Resource := standing "crates" "shelves"

def shelves : Resource := standing "shelves" "rooms"

def towns : Resource where
  name := "towns"
  identity := ["number"]
  fields := [key "number"]

/-- Every place but a town is seen only within a place whose number is not zero. -/
def placed : Gate where
  required := fun _ _ => some (.compare ⟨"within.number", .ne, .int 0⟩)

def depot : Registry where
  schema := {
    table := .ofList [("crates", crates), ("shelves", shelves), ("rooms", standing "rooms" "floors"),
      ("floors", standing "floors" "stores"), ("stores", standing "stores" "towns"), ("towns", towns)]
    named := by decide +kernel
    faultless := by decide +kernel }
  gates := ["crates", "shelves", "rooms", "floors", "stores"].map fun name => (name, placed)
  relationshipGates := []

/-- The filters on the way from a shelf to its town compile, also below a filter of a request; with those on
the way from a crate, one more, they are too complex. -/
theorem depot_tooComplex_iff :
    (∃ p, depot.required .empty shelves = .ok p) ∧
      depot.required .empty crates = .error (.tooComplex requiredDepth) ∧
      depot.restricted .empty crates (some (.compare ⟨"number", .ne, .int 1⟩)) =
        .error (.tooComplex requiredDepth) := by
  have hvalid : depot.RequiresValid .empty := by decide +kernel
  obtain ⟨-, hshelves, -⟩ := Registry.tooComplex_iff_descends (r := shelves) hvalid rfl
  obtain ⟨hcrates, -, hfiltered⟩ := Registry.tooComplex_iff_descends (r := crates) hvalid rfl
  have hfour : depot.Descends .empty (fun last => depot.crossed .empty last ≠ []) 4 crates := by decide +kernel
  exact ⟨hshelves (by decide +kernel), hcrates.2 hfour, (hfiltered _ (by decide +kernel)).1.2 (.inr hfour)⟩

/-- No chain of required filters goes more than eight levels below that of a crate, and still it is too
complex. -/
theorem crates_tooComplex :
    depot.RequiresValid .empty ∧ depot.schema.resource? crates.name = some crates ∧
      (∀ levels > requiredDepth,
        ¬depot.Descends .empty (fun last => ((depot.gate last.name).required last .empty).isSome) levels crates) ∧
      depot.required .empty crates = .error (.tooComplex requiredDepth) := by
  refine ⟨by decide +kernel, rfl, fun levels hlevels hchain => ?_, by rfl⟩
  have hsix : ¬depot.Descends .empty (fun _ => True) 6 crates := by decide +kernel
  obtain ⟨more, rfl⟩ : ∃ more, levels = 6 + more := ⟨levels - 6, by unfold requiredDepth at hlevels; omega⟩
  exact hsix ((Registry.descends_add.1 hchain).imp fun _ _ => trivial)

end Music

end NestedResources
