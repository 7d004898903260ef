import NestedResources.Proofs.Read.Reading
import NestedResources.Proofs.Store.Concealed
import NestedResources.Proofs.Write.Rendered

/-!
# Readings keep off concealed columns

Whatever is compiled for a query names no concealed column: paths and sorts lead to fields that are not
write-only. So a reading of blanked tables finds the blanked rows, in the same order and number
(`Registry.rows_blank`), and these are rendered as the rows are.
-/
namespace NestedResources

section

variable {α β γ δ : Type}

theorem Except.bind_map {ε : Type} {x : Except ε α} {f : α → β} {g : β → Except ε γ} :
    x.map f >>= g = x >>= fun a => g (f a) := by
  cases x <;> rfl

theorem Except.map_bind {ε : Type} {x : Except ε α} {f : α → Except ε β} {g : β → γ} :
    (x >>= f).map g = x >>= fun a => (f a).map g := by
  cases x <;> rfl

/-- Steps that commute with a change of their items and of what they give. -/
theorem Except.mapM_map_of_commute {ε : Type} {f : α → Except ε β} {g : γ → Except ε δ}
    {change : α → γ} {changed : β → δ} {items : List α}
    (h : ∀ a ∈ items, g (change a) = (f a).map changed) :
    (items.map change).mapM g = (items.mapM f).map (List.map changed) := by
  induction items with
  | nil => rfl
  | cons a items ih =>
    rw [List.map_cons, List.mapM_cons, List.mapM_cons, h a List.mem_cons_self,
      ih fun b hb => h b (List.mem_cons_of_mem a hb)]
    cases f a with
    | error e => rfl
    | ok b => cases items.mapM f <;> rfl

end

/-! ## Fetches -/

mutual

/-- An include whose predicates and sorts keep off the concealed columns. -/
def Include.KeepsOff (s : Schema) (r : Resource) : Include → Prop
  | .mk name predicate sorts includes => ∀ rel target, s.step? r name = some (rel, target) →
      (∀ p ∈ predicate, p.KeepsOff s target) ∧ (∀ c ∈ sorts, s.conceals target c.column = false) ∧
        Include.AllKeepOff s target includes

def Include.AllKeepOff (s : Schema) (r : Resource) : List Include → Prop
  | [] => True
  | i :: is => Include.KeepsOff s r i ∧ Include.AllKeepOff s r is

end

theorem Include.allKeepOff_iff {s : Schema} {r : Resource} {is : List Include} :
    AllKeepOff s r is ↔ ∀ i ∈ is, i.KeepsOff s r := by
  induction is with
  | nil => simp [AllKeepOff]
  | cons i is ih => simp [AllKeepOff, ih]

namespace Tables.Blanks

variable {s : Schema} {t v : Tables} {r target : Resource} {rel : Relationship}

theorem relate_eq {build build' : Record → Except Error Row} {members : List Record}
    (hbuild : ∀ m, build' (target.blank s m) = (build m).map (Row.blank s target)) :
    relate rel build' (members.map (target.blank s))
      = (relate rel build members).map (Row.blankUnder s (some (rel, target))) := by
  unfold relate
  split
  · rw [Except.mapM_map_of_commute fun m _ => hbuild m]
    cases members.mapM build with
    | error e => rfl
    | ok rows => simp [Except.map, Row.blankUnder, Row.blankAll_eq_map]
  · cases members with
    | nil => rfl
    | cons m members =>
      rw [List.map_cons]
      dsimp only
      rw [hbuild]
      cases build m <;> rfl

mutual

/-- Rows that are built from blanked tables are the blanked rows. -/
theorem buildRow_eq (h : t.Blanks s v) {r : Resource} (hr : s.resource? r.name = some r) (row : Row) :
    ∀ is : List Include, Include.AllKeepOff s r is →
      v.buildRow s r (row.blank s r) is = (t.buildRow s r row is).map (Row.blank s r)
  | [], _ => by
    rw [buildRow, buildRow]
    rfl
  | i :: is, hi => by
    rw [buildRow, buildRow, Row.record_blank, buildInclude_eq h hr row.record i hi.1, Except.bind_map,
      Except.map_bind]
    refine Except.bind_congr fun (name, related) _ => ?_
    dsimp only
    rw [← Row.blank_attach]
    exact buildRow_eq h hr (row.attach name related) is hi.2

theorem buildInclude_eq (h : t.Blanks s v) {r : Resource} (hr : s.resource? r.name = some r)
    (record : Record) : ∀ i : Include, i.KeepsOff s r →
      v.buildInclude s r (r.blank s record) i
        = (t.buildInclude s r record i).map fun e => (e.1, Row.blankUnder s (s.step? r e.1) e.2)
  | .mk name predicate sorts includes, hi => by
    rw [buildInclude, buildInclude, Except.map_bind]
    refine Except.bind_congr fun rel hrel => ?_
    rw [Except.map_bind]
    refine Except.bind_congr fun target htarget => ?_
    have hrel := Resource.requireRelationship_eq_ok.1 hrel
    have htarget : s.target? rel = some target := Schema.require_eq_ok.1 htarget
    have hstep : s.step? r name = some (rel, target) := Schema.step?_eq_some.2 ⟨hrel, htarget⟩
    have hresource := Schema.resource?_of_target? htarget
    obtain ⟨hpredicate, hsorts, hincludes⟩ := hi rel target hstep
    rw [h.members_eq hr (List.mem_of_find?_eq_some hrel) htarget, h.select_eq hresource hpredicate hsorts]
    dsimp only
    rw [relate_eq fun m => buildRow_eq h hresource (.mk m []) includes hincludes, Except.bind_map,
      Except.map_bind]
    refine Except.bind_congr fun related _ => ?_
    rw [Except.map, Resource.name_of_relationship? hrel, hstep]

end

/-- A fetch from blanked tables finds the blanked rows. -/
theorem fetch_eq (h : t.Blanks s v) {request : Fetch} (hr : s.resource? request.resource = some r)
    (hpredicate : ∀ p ∈ request.predicate, p.KeepsOff s r)
    (hsorts : ∀ c ∈ request.sorts, s.conceals r c.column = false)
    (hincludes : Include.AllKeepOff s r request.includes) :
    v.fetch s request = (t.fetch s request).map (List.map (Row.blank s r)) := by
  have hname : s.resource? r.name = some r := Schema.name_of_resource? hr ▸ hr
  rw [fetch, fetch, Except.map_bind]
  refine Except.bind_congr fun found hfound => ?_
  cases (Schema.require_eq_ok.1 hfound).symm.trans hr
  dsimp only
  rw [h.rowsOf_eq hname, h.select_eq hname hpredicate hsorts, Window.apply_map]
  exact Except.mapM_map_of_commute fun record _ => h.buildRow_eq hname (.mk record []) _ hincludes

/-- The rows of one parent, blanked. -/
def blankFound (s : Schema) (r : Resource) (found : RelatedRows) : RelatedRows :=
  ⟨found.parent, found.rows.map (Row.blank s r)⟩

theorem fetchRelated_eq (h : t.Blanks s v) {request : RelatedFetch} {parent : Resource}
    (hparent : s.resource? request.resource = some parent)
    (hstep : s.step? parent request.relationship = some (rel, target))
    (hpredicate : ∀ p ∈ request.predicate, p.KeepsOff s target)
    (hsorts : ∀ c ∈ request.sorts, s.conceals target c.column = false)
    (hincludes : Include.AllKeepOff s target request.includes) :
    v.fetchRelated s request = (t.fetchRelated s request).map (List.map (blankFound s target)) := by
  obtain ⟨hrel, htarget⟩ := Schema.step?_eq_some.1 hstep
  have hname : s.resource? parent.name = some parent := Schema.name_of_resource? hparent ▸ hparent
  have hresource := Schema.resource?_of_target? htarget
  rw [fetchRelated, fetchRelated, Except.map_bind]
  refine Except.bind_congr fun found hfound => ?_
  cases (Schema.require_eq_ok.1 hfound).symm.trans hparent
  rw [Except.map_bind]
  refine Except.bind_congr fun found hfound => ?_
  cases (Resource.requireRelationship_eq_ok.1 hfound).symm.trans hrel
  rw [Except.map_bind]
  refine Except.bind_congr fun found hfound => ?_
  cases (Schema.require_eq_ok.1 hfound).symm.trans htarget
  conv_lhs => rw [← List.map_id request.parents]
  refine Except.mapM_map_of_commute fun i _ => ?_
  rw [id, row?, row?, h.rowAt?_eq hname]
  cases t.rowAt? parent.name i.key with
  | none => rfl
  | some record =>
    dsimp only [Option.map_some]
    rw [h.members_eq hname (List.mem_of_find?_eq_some hrel) htarget, h.select_eq hresource hpredicate hsorts,
      Window.apply_map, Except.mapM_map_of_commute fun member _ =>
        h.buildRow_eq hresource (.mk member []) _ hincludes, Except.bind_map, Except.map_bind]
    rfl

theorem count_eq (h : t.Blanks s v) {name : String} {predicate : Option Predicate}
    (hpredicate : ∀ r, s.resource? name = some r → ∀ p ∈ predicate, p.KeepsOff s r) :
    v.count s name predicate = t.count s name predicate := by
  refine Except.bind_congr fun r hr => ?_
  have hr := Schema.require_eq_ok.1 hr
  have hname : s.resource? r.name = some r := Schema.name_of_resource? hr ▸ hr
  rw [h.rowsOf_eq hr, List.countP_map]
  exact congrArg (fun keep => Except.ok (List.countP keep _))
    (funext (h.passes_eq hname (hpredicate r hr)))

end Tables.Blanks

/-! ## Fetches of their own -/

namespace Row

variable {s : Schema} {root r : Resource}

theorem blankUnder_many (rel : Relationship) (rows : List Row) :
    blankUnder s (some (rel, r)) (.many rows) = .many (rows.map (blank s r)) := by
  rw [blankUnder, blankAll_eq_map]

/-- Rows at the end of a path of blanked rows are the blanked ones. -/
theorem rowsAt_blank {path : List String} (hat : s.at? root path = some r) (rows : List Row) :
    rowsAt path (rows.map (blank s root)) = (rowsAt path rows).map (blank s r) := by
  induction path generalizing root rows with
  | nil =>
    cases hat
    rfl
  | cons name rest ih =>
    obtain ⟨⟨rel, target⟩, hstep, hat⟩ := Option.bind_eq_some_iff.1 hat
    rw [rowsAt, rowsAt, List.flatMap_map, List.map_flatMap]
    refine congrArg (List.flatMap · rows) (funext fun row => ?_)
    rw [get?_related_blank, hstep]
    cases Entries.get? name row.related with
    | none => rfl
    | some members =>
      cases members with
      | absent => rfl
      | one member => exact ih hat [member]
      | many members =>
        rw [Option.map_some, blankUnder_many]
        exact ih hat members

/-- Changes at the end of a path that commute with blanking do so from the top. -/
theorem blank_modifyAt {path : List String} (hat : s.at? root path = some r) {f f' : Row → Row}
    (h : ∀ row, (f row).blank s r = f' (row.blank s r)) (row : Row) :
    (modifyAt f path row).blank s root = modifyAt f' path (row.blank s root) := by
  induction path generalizing root row with
  | nil =>
    cases hat
    exact h row
  | cons name rest ih =>
    obtain ⟨⟨rel, target⟩, hstep, hat⟩ := Option.bind_eq_some_iff.1 hat
    rw [modifyAt, modifyAt, get?_related_blank, hstep]
    cases Entries.get? name row.related with
    | none => rfl
    | some members =>
      cases members with
      | absent => rfl
      | one member =>
        dsimp only
        rw [blank_attach, hstep, blankUnder, ih hat member]
        rfl
      | many members =>
        rw [Option.map_some, blankUnder_many]
        dsimp only
        rw [blank_attach, hstep, blankUnder_many, List.map_map, List.map_map]
        exact congrArg (fun below => (row.blank s root).attach name (.many (members.map below)))
          (funext (ih hat))

end Row

namespace ScopedFetch

variable {s : Schema} {t v : Tables} {root parent target : Resource} {rel : Relationship}

theorem parentsOf_blank (rows : List Row) :
    parentsOf parent (rows.map (Row.blank s parent)) = parentsOf parent rows := by
  rw [parentsOf, parentsOf, List.filterMap_map]
  congr 3
  funext row
  rw [Function.comp_apply, Row.record_blank, Resource.identityOf?_blank]

theorem membersOf_blank (found : List RelatedRows) (row : Row) :
    membersOf parent (found.map (Tables.Blanks.blankFound s target)) (row.blank s parent)
      = (membersOf parent found row).map (Row.blank s target) := by
  rw [membersOf, membersOf, Row.record_blank, Resource.identityOf?_blank]
  cases parent.identityOf? row.record with
  | none => rfl
  | some i =>
    dsimp only
    rw [List.find?_map]
    change Option.getD (Option.map _ (Option.map _
      (found.find? fun x => decide (x.parent.key = i.key)))) _ = _
    cases found.find? fun x => decide (x.parent.key = i.key) <;> rfl

/-- A fetch that keeps off the concealed columns, for the rows at the end of its path. -/
structure KeepsOff (s : Schema) (root parent target : Resource) (rel : Relationship)
    (fetch : ScopedFetch) : Prop where
  at_eq : s.at? root fetch.path.dropLast = some parent
  parent_eq : s.resource? fetch.request.resource = some parent
  step_eq : s.step? parent fetch.request.relationship = some (rel, target)
  predicate : ∀ p ∈ fetch.request.predicate, p.KeepsOff s target
  sorts : ∀ c ∈ fetch.request.sorts, s.conceals target c.column = false
  includes : Include.AllKeepOff s target fetch.request.includes

theorem run_blank (h : t.Blanks s v) {fetch : ScopedFetch} (hkeeps : fetch.KeepsOff s root parent target rel)
    (rows : List Row) :
    fetch.run v s (rows.map (Row.blank s root))
      = (fetch.run t s rows).map (List.map (Row.blank s root)) := by
  rw [run, run, Except.map_bind]
  refine Except.bind_congr fun found hfound => ?_
  cases (Schema.require_eq_ok.1 hfound).symm.trans hkeeps.parent_eq
  dsimp only
  rw [Row.rowsAt_blank hkeeps.at_eq, parentsOf_blank]
  have hattach : ∀ found : List RelatedRows, (rows.map (Row.blank s root)).map (Row.modifyAt (fun row =>
        row.attach fetch.request.relationship
          (.many (membersOf parent (found.map (Tables.Blanks.blankFound s target)) row))) fetch.path.dropLast)
      = (rows.map (Row.modifyAt (fun row => row.attach fetch.request.relationship
          (.many (membersOf parent found row))) fetch.path.dropLast)).map (Row.blank s root) := by
    intro found
    rw [List.map_map, List.map_map]
    refine List.map_congr_left fun row _ => (Row.blank_modifyAt hkeeps.at_eq (fun row => ?_) row).symm
    rw [Row.blank_attach, hkeeps.step_eq, Row.blankUnder_many, membersOf_blank]
  split
  · exact congrArg Except.ok (hattach [])
  · rw [h.fetchRelated_eq, Except.bind_map, Except.map_bind]
    · exact Except.bind_congr fun found _ => congrArg Except.ok (hattach found)
    · exact hkeeps.parent_eq
    · exact hkeeps.step_eq
    · exact hkeeps.predicate
    · exact hkeeps.sorts
    · exact hkeeps.includes

end ScopedFetch

/-! ## What is compiled -/

namespace Filter

variable {s : Schema} {required : Resource → Except Error (Option Predicate)} {r : Resource}

/-- What crossings require keeps off the concealed columns. -/
def RequiredKeepsOff (s : Schema) (required : Resource → Except Error (Option Predicate)) : Prop :=
  ∀ r p, s.resource? r.name = some r → required r = .ok (some p) → p.KeepsOff s r

theorem keepsOff_behind (hrequired : RequiredKeepsOff s required) {display : String} {last : Resource}
    {path : List String} {hops : List Hop} {leaf p : Predicate}
    (hcross : s.cross display r path = .ok (hops, last)) (hleaf : leaf.KeepsOff s last)
    (h : behind s required hops leaf = .ok p) : p.KeepsOff s r := by
  induction path generalizing r hops p with
  | nil =>
    cases hcross
    cases h
    exact hleaf
  | cons name rest ih =>
    unfold Schema.cross at hcross
    split at hcross
    · cases hcross
    · rename_i rel hrel
      obtain ⟨target, htarget, hcross⟩ := Except.bind_eq_ok.1 hcross
      obtain ⟨⟨hops', last'⟩, hrest, hcross⟩ := Except.bind_eq_ok.1 hcross
      cases hcross
      obtain ⟨inner, hinner, h⟩ := Except.bind_eq_ok.1 h
      obtain ⟨target', htarget', h⟩ := Except.bind_eq_ok.1 h
      cases htarget.symm.trans htarget'
      obtain ⟨filter, hfilter, h⟩ := Except.bind_eq_ok.1 h
      cases h
      have hresource := @Schema.resource?_of_target? _ rel _ (Schema.require_eq_ok.1 htarget)
      have hjoined : ∀ p ∈ Predicate.conjoin (some inner) filter, p.KeepsOff s target := by
        refine Predicate.keepsOff_conjoin ?_ fun p hp => ?_
        · rintro p ⟨⟩
          exact ih hrest hinner
        · cases hp
          exact hrequired target p hresource hfilter
      intro rel' found hstep
      obtain ⟨hrel', hfound⟩ := Schema.step?_eq_some.1 hstep
      rw [Resource.name_of_relationship? hrel, hrel] at hrel'
      cases hrel'
      cases hfound.symm.trans (Schema.require_eq_ok.1 htarget)
      refine ⟨rfl, ?_⟩
      cases hp : Predicate.conjoin (some inner) filter with
      | none => trivial
      | some p => exact hjoined p hp

mutual

/-- A compiled filter keeps off the concealed columns. -/
theorem keepsOff_compileWith (hrequired : RequiredKeepsOff s required) :
    ∀ (f : Filter) (p : Predicate), f.compileWith s required r = .ok p → p.KeepsOff s r
  | .and children, p, h | .or children, p, h | .not children, p, h => by
    obtain ⟨ps, hps, rfl⟩ := Except.map_eq_ok.1 h
    exact keepsOff_compileAll hrequired children ps hps
  | .compare c, p, h => by
    obtain ⟨path, hpath, h⟩ := Except.bind_eq_ok.1 h
    obtain ⟨leaf, hleaf, h⟩ := Except.bind_eq_ok.1 h
    obtain ⟨hcross, hfield, hfilterable⟩ := Schema.fieldPath_eq_ok hpath
    refine keepsOff_behind hrequired hcross ?_ h
    unfold compileLeaf at hleaf
    split at hleaf
    · cases hleaf
    · split at hleaf
      · cases hleaf
      · cases hleaf
        exact Schema.conceals_of_field? hfield hfilterable

theorem keepsOff_compileAll (hrequired : RequiredKeepsOff s required) :
    ∀ (fs : List Filter) (ps : List Predicate), compileAll s required r fs = .ok ps →
      Predicate.AllKeepOff s r ps
  | [], ps, h => by
    cases h
    trivial
  | f :: fs, ps, h => by
    obtain ⟨p, hp, h⟩ := Except.bind_eq_ok.1 h
    obtain ⟨rest, hrest, h⟩ := Except.bind_eq_ok.1 h
    cases h
    exact ⟨keepsOff_compileWith hrequired f p hp, keepsOff_compileAll hrequired fs rest hrest⟩

end

end Filter

namespace Registry

variable {g : Registry} {ctx : Context} {root r : Resource} {es : Embeds}

/-- What gates require keeps off the concealed columns. -/
theorem keepsOff_requiredWithin (steps : Nat) :
    Filter.RequiredKeepsOff g.schema (g.requiredWithin ctx steps) := by
  intro r p hr h
  match steps with
  | 0 => cases h
  | steps + 1 =>
    unfold requiredWithin at h
    split at h
    · cases h
    · obtain ⟨found, hfound, h⟩ := Except.bind_eq_ok.1 h
      cases (Schema.require_eq_ok.1 hfound).symm.trans hr
      obtain ⟨compiled, hcompiled, hp⟩ := Except.map_eq_ok.1 h
      cases hp
      refine Filter.keepsOff_compileWith ?_ _ _ hcompiled
      match steps with
      | 0 => exact fun _ _ _ hnone => by cases hnone
      | left + 1 => exact keepsOff_requiredWithin left

theorem keepsOff_restricted (hr : g.schema.resource? r.name = some r) {filter : Option Filter}
    {p : Option Predicate} (h : g.restricted ctx r filter = .ok p) : ∀ q ∈ p, q.KeepsOff g.schema r := by
  have hadd : ∀ explicit : Option Predicate, (∀ q ∈ explicit, q.KeepsOff g.schema r) →
      (g.required ctx r >>= fun required => .ok (Predicate.conjoin explicit required)) = .ok p →
      ∀ q ∈ p, q.KeepsOff g.schema r := by
    intro explicit hexplicit h
    obtain ⟨required, hrequired, h⟩ := Except.bind_eq_ok.1 h
    cases h
    refine Predicate.keepsOff_conjoin hexplicit fun q hq => ?_
    cases hq
    exact keepsOff_requiredWithin _ r q hr hrequired
  cases filter with
  | none => exact hadd none (by simp) h
  | some f =>
    obtain ⟨explicit, hexplicit, h⟩ := Except.bind_eq_ok.1 h
    obtain ⟨compiled, hcompiled, rfl⟩ := Except.map_eq_ok.1 hexplicit
    refine hadd (some compiled) (fun q hq => ?_) h
    cases hq
    exact Filter.keepsOff_compileWith (keepsOff_requiredWithin _) f _ hcompiled

theorem shown_columns {sorts : List SortKey} {cs : List ColumnSort}
    (h : sorts.mapM (SortKey.column r) = .ok cs) : ∀ c ∈ cs, g.schema.conceals r c.column = false := by
  replace h := Except.mapM_eq_ok.1 h
  induction h with
  | nil => simp
  | @cons key c _ _ hcolumn _ ih =>
    refine List.forall_mem_cons.2 ⟨?_, ih⟩
    unfold SortKey.column at hcolumn
    split at hcolumn
    · rename_i f hf
      split at hcolumn
      · rename_i hfilterable
        cases hcolumn
        exact Schema.conceals_of_field? hf hfilterable
      · cases hcolumn
    · cases hcolumn

theorem keepsOff_includesBelow {steps : Nat} {path : List String} {includes : List Include}
    (h : g.includesBelow ctx es steps r path = .ok includes) : Include.AllKeepOff g.schema r includes := by
  induction steps generalizing r path includes with
  | zero =>
    cases h
    trivial
  | succ steps ih =>
    refine Include.allKeepOff_iff.2 fun i hi => ?_
    obtain ⟨e, rel, target, p, inner, hstep, hp, hinner, rfl⟩ :=
      Except.exists_of_forall₂ (includesBelow_eq_ok h).flip hi
    intro rel' target' hstep'
    cases hstep.symm.trans hstep'
    have htarget := Schema.resource?_of_target? (Schema.step?_eq_some.1 hstep).2
    exact ⟨keepsOff_restricted htarget hp, by simp, ih hinner⟩

theorem FetchOf.keepsOff {e : Embed} {fetch : ScopedFetch} {parent target : Resource} {rel : Relationship}
    (h : g.FetchOf ctx es root e fetch parent target rel)
    (hparent : g.schema.resource? parent.name = some parent) :
    fetch.KeepsOff g.schema root parent target rel where
  at_eq := h.path_eq ▸ h.at_eq
  parent_eq := h.resource_eq ▸ hparent
  step_eq := h.relationship_eq ▸ h.step_eq
  predicate := keepsOff_restricted (Schema.resource?_of_target? (Schema.step?_eq_some.1 h.step_eq).2)
    h.restricted_eq
  sorts := shown_columns h.sorts_eq
  includes := keepsOff_includesBelow h.includes_eq

variable {t v : Tables} {q : Query} {scope : Option Predicate} {reading : Reading}

/-- A reading of blanked tables finds the blanked rows. -/
theorem rows_blank (h : t.Blanks g.schema v) (hr : g.schema.resource? r.name = some r)
    (hof : g.ReadingOf ctx r q es scope reading) (hscope : ∀ p ∈ scope, p.KeepsOff g.schema r) :
    reading.rows v g.schema = (reading.rows t g.schema).map (List.map (Row.blank g.schema r)) := by
  obtain ⟨p, hp, hpredicate⟩ := hof.restricted_eq
  have hroot : g.schema.resource? reading.fetch.resource = some r := hof.root_eq ▸ hr
  have hfetch := h.fetch_eq hroot
    (hpredicate ▸ Predicate.keepsOff_conjoin (keepsOff_restricted hr hp) hscope)
    (shown_columns hof.sorts_eq) (keepsOff_includesBelow hof.includes_eq)
  rw [Reading.rows, Reading.rows, hfetch, Except.bind_map, Except.map_bind]
  refine Except.bind_congr fun rows hrows => ?_
  clear hrows
  have hfetches := Except.mapM_eq_ok.1 hof.fetches_eq
  generalize es.topDown = embeds, reading.scopedFetches = fetches at hfetches
  induction hfetches generalizing rows with
  | nil => rfl
  | cons hs _ ih =>
    obtain ⟨parent, target, rel, hfetchOf⟩ := fetchOf_of_scopedFetch hs
    have hkeeps := hfetchOf.keepsOff (Schema.resource?_of_at? hr hfetchOf.at_eq)
    rw [List.foldlM_cons, List.foldlM_cons, ScopedFetch.run_blank h hkeeps, Except.bind_map,
      Except.map_bind]
    exact Except.bind_congr fun rows _ => ih rows

end Registry

/-! ## Rendering -/

/-- The relationships of every resource have names of their own. -/
def Schema.SingleNames (s : Schema) : Prop :=
  ∀ name r, s.resource? name = some r → (r.relationships.map Relationship.name).Nodup

theorem Resource.renderedRelationship?_eq {r : Resource}
    (hsingle : (r.relationships.map Relationship.name).Nodup) (name : String) :
    r.renderedRelationship? name = r.relationship? name := by
  have hreverse : (r.relationships.reverse.map Relationship.name).Nodup := by
    rw [List.map_reverse]
    exact List.nodup_reverse.2 hsingle
  ext rel
  rw [renderedRelationship?, relationship?, List.find?_key_eq_some_iff hreverse,
    List.find?_key_eq_some_iff hsingle, List.mem_reverse]

theorem Resource.renderEntity_blank (s : Schema) (style : RenderStyle) (r : Resource)
    (selection : Selection) (record : Record) (rendered : List (String × Json)) :
    r.renderEntity style selection (r.blank s record) rendered
      = r.renderEntity style selection record rendered := by
  have hfields : r.renderFields selection (r.blank s record) = r.renderFields selection record := by
    refine List.map_congr_left fun f hf => ?_
    obtain ⟨hf, hincludes⟩ := List.mem_filter.1 hf
    have hreadable : f.writeOnly = false := by
      simp only [Selection.includes, Field.isRendered, Bool.and_eq_true, Bool.not_eq_true'] at hincludes
      exact hincludes.1.2
    rw [Resource.get?_blank_of_shown (Schema.conceals_of_readable hf hreadable)]
  rw [renderEntity, renderEntity, hfields, Resource.identityOf?_blank]

namespace Row

variable {s : Schema} (style : RenderStyle)

mutual

/-- A blanked row is rendered as the row is. -/
theorem render_blank (hsingle : s.SingleNames) {r : Resource} (hr : s.resource? r.name = some r)
    (selection : Selection) :
    ∀ row : Row, render s style r selection (row.blank s r) = render s style r selection row
  | .mk record related => by
    rw [blank, render, render, Resource.renderEntity_blank, renderRelated_blank hsingle hr selection related]

theorem renderRelated_blank (hsingle : s.SingleNames) {r : Resource}
    (hr : s.resource? r.name = some r) (selection : Selection) :
    ∀ related : List (String × Related),
      renderRelated s style r selection (blankRelated s r related) = renderRelated s style r selection related
  | [] => rfl
  | (name, members) :: rest => by
    rw [blankRelated, renderRelated, renderRelated, renderRelated_blank hsingle hr selection rest]
    cases hrendered : r.renderedRelationship? name with
    | none => rfl
    | some rel =>
      cases hchild : selection.child? name with
      | none => rfl
      | some child =>
        have hrel := hrendered
        rw [Resource.renderedRelationship?_eq (hsingle _ r hr)] at hrel
        cases htarget : s.target? rel with
        | none => simp only [htarget]
        | some target =>
          have hstep : s.step? r name = some (rel, target) := Schema.step?_eq_some.2 ⟨hrel, htarget⟩
          have hresource := Schema.resource?_of_target? htarget
          rw [hstep]
          cases members with
          | absent => rfl
          | one member =>
            simp only [htarget, blankUnder]
            rw [render_blank hsingle hresource child member]
          | many list =>
            simp only [htarget, blankUnder]
            rw [renderAll_blank hsingle hresource child list]

theorem renderAll_blank (hsingle : s.SingleNames) {r : Resource} (hr : s.resource? r.name = some r)
    (selection : Selection) : ∀ rows : List Row,
    renderAll s style r selection (blankAll s r rows) = renderAll s style r selection rows
  | [] => rfl
  | row :: rows => by
    rw [blankAll, renderAll, renderAll, render_blank hsingle hr selection row,
      renderAll_blank hsingle hr selection rows]

end

end Row

end NestedResources
