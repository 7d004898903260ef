import NestedResources.Proofs.Write.Scalars

/-!
# Documents of new entities

An object whose identity is not found is the document of a new entity. Its fields are read against no
row, one creation is planned for it, and only then its relationships are walked over. If there is no
issue, it has every field that is required on input, and a column for which null never passes is set by
whatever field of the document writes it.
-/
namespace NestedResources

/-! ## Values that are not null -/

/-- Only null is coerced to null. -/
theorem FieldType.ne_null_of_coerce {type : FieldType} {raw v : Json} (hraw : raw ≠ .null)
    (h : type.coerce raw = .ok v) : v ≠ .null := by
  rintro rfl
  unfold coerce at h
  dsimp only at h
  split at h
  · exact hraw rfl
  · cases h
    exact hraw rfl
  · cases h
  · split at h <;> cases h
  · split at h <;> cases h
  · cases h
  · split at h <;> cases h
  · cases h
  · split at h <;> cases h
  · split at h <;> cases h
  · cases h

/-- Null does not pass for a field that is not optional. -/
theorem Field.ne_null_of_check {f : Field} {path : String} {raw v : Json} (hrequired : f.optional = false)
    (h : f.check path raw = .ok v) : v ≠ .null := by
  have hraw : raw ≠ .null := by
    rintro rfl
    rw [check, if_pos (show Json.null.isNull = true from rfl), hrequired] at h
    cases h
  exact FieldType.ne_null_of_coerce hraw (coerce_of_check hraw h)

namespace Resource

variable {r : Resource} {f : Field} {members : List (String × Json)} {start values : Record} {raw : Json}

/-- A column for which null never passes stays set. -/
theorem isSome_value?_of_set {c : String} (hfull : ∀ g ∈ r.fields, g.column = c → g.optional = false)
    (hstart : (start.value? c).isSome = true)
    (h : members.foldlM (r.readMember? none) start = some values) : (values.value? c).isSome = true := by
  refine readMembers_induction (p := fun values => (values.value? c).isSome = true) hstart ?_ h
  intro before next key raw _ _ hset hread
  obtain ⟨g, v, hg, hcheck, ⟨-, _, hstored, -⟩ | ⟨rfl, -⟩⟩ := readValue?_eq_some hread
  · cases hstored
  · by_cases hc : g.column = c
    · subst hc
      have hv := Field.ne_null_of_check (hfull g (List.mem_of_find?_eq_some hg) rfl) hcheck
      exact Option.isSome_of_eq_some (Record.value?_of_get? (Dict.get?_insert_self ..) hv)
    · rw [Record.value?_congr (Dict.get?_insert_of_ne before (Ne.symm hc) v)]
      exact hset

/-- A field of the document of a new entity sets its column, if null never passes for the column. -/
theorem isSome_value?_of_mem (hf : r.field? f.name = some f) (hread : ¬r.Skips f.name)
    (hfull : ∀ g ∈ r.fields, g.column = f.column → g.optional = false) (hmem : (f.name, raw) ∈ members)
    (h : members.foldlM (r.readMember? none) start = some values) :
    (values.value? f.column).isSome = true := by
  induction members generalizing start with
  | nil => cases hmem
  | cons m members ih =>
    rw [List.foldlM_cons] at h
    obtain ⟨between, hfirst, hrest⟩ := Option.bind_eq_some_iff.1 h
    rcases List.mem_cons.1 hmem with rfl | hmem
    · rw [readMember?, if_neg hread] at hfirst
      obtain ⟨g, v, hg, hcheck, ⟨-, _, hstored, -⟩ | ⟨rfl, -⟩⟩ := readValue?_eq_some hfirst
      · cases hstored
      · cases hf.symm.trans hg
        have hv := Field.ne_null_of_check (hfull f (List.mem_of_find?_eq_some hf) rfl) hcheck
        exact isSome_value?_of_set hfull
          (Option.isSome_of_eq_some (Record.value?_of_get? (Dict.get?_insert_self ..) hv)) hrest
    · exact ih hmem hrest

/-- Whether a document has every field that is required on input. -/
def Supplies (r : Resource) (members : List (String × Json)) : Prop :=
  ∀ f ∈ r.fields, f.requiredOnInput = true → (Entries.get? f.name members).isSome = true

end Resource

namespace WalkSite

open Walking

variable {site : WalkSite} {w after : Walk} {r : Resource} {path : String} {position : Position}
  {mode : WriteMode} {members : List (String × Json)} {visited : Option Visited}

/-! ## Required fields -/

/-- At the top a document whose relationships are only mentioned by links sets no columns by links. -/
theorem linkedColumns_root {root : Root}
    (hapart : ∀ m ∈ members, ∀ rel, r.walked? m.1 = some rel → m.2.isString = true) :
    linkedColumns r (.root root) members = [] := by
  refine List.flatMap_eq_nil_iff.2 fun m hm => ?_
  obtain ⟨key, raw⟩ := m
  dsimp only
  split
  · rfl
  · rename_i hskips
    cases hrel : r.relationship? key with
    | none => rfl
    | some rel =>
      have htext : raw.isString = true := hapart _ hm rel ((if_neg hskips).trans hrel)
      have hraw : raw.isObject = false := by
        cases raw with
        | str _ => rfl
        | _ => cases htext
      rw [Option.map_some, hraw]
      cases rel.join <;> rfl

/-- Items that fail a test are reported one by one. -/
theorem issues_of_forM {α : Type} {test : α → Bool} {path : α → String} {d : Defect} {items : List α} {u : Unit}
    (h : (items.forM fun a => if test a then pure () else issue (path a) d : Walking Unit).run.run w =
      (.ok u, after)) :
    ∃ found, after.issues = w.issues ++ found ∧ (found = [] → ∀ a ∈ items, test a = true) := by
  induction items generalizing w with
  | nil =>
    cases h
    exact ⟨[], (List.append_nil _).symm, fun _ a ha => by cases ha⟩
  | cons a items ih =>
    obtain ⟨_, between, hfirst, hrest⟩ := bind_eq_ok h
    obtain ⟨found, hfound, hothers⟩ := ih hrest
    dsimp only at hfirst
    split at hfirst
    · rename_i htest
      cases hfirst
      refine ⟨found, hfound, fun hnil b hb => ?_⟩
      rcases List.mem_cons.1 hb with rfl | hb
      · exact htest
      · exact hothers hnil b hb
    · cases hfirst
      refine ⟨d.issueAt (path a) :: found, ?_, fun hnil => by cases hnil⟩
      rw [hfound]
      exact List.append_assoc _ [_] _

/-- If no required field is reported, the document of a new entity has them all, but for those in columns
that links will set. -/
theorem supplied_of_requireFields {s : Scope} {u : Unit} (hnew : s.known = none)
    (h : (requireFields s members).run.run w = (.ok u, after)) (hclean : after.issues = []) :
    ∀ f ∈ s.resource.fields, f.requiredOnInput = true →
      (Entries.get? f.name members).isSome = true ∨ f.column ∈ linkedColumns s.resource s.position members := by
  have hcreating : s.creating = true := by rw [Scope.creating, hnew]; rfl
  obtain ⟨found, hfound, htests⟩ := issues_of_forM h
  rw [hclean] at hfound
  intro f hf hrequired
  have htest := htests (List.append_eq_nil_iff.1 hfound.symm).2 f (List.mem_filter.2 ⟨hf, hrequired⟩)
  simpa [hcreating] using htest

/-! ## Planning a creation -/

/-- A walk that has read the fields of a new entity and planned its creation. -/
structure Founds (site : WalkSite) (s : Scope) (members : List (String × Json)) (values : Record)
    (w after : Walk) : Prop where
  commands : after.plan.commands = w.plan.commands ++ [.create w.plan.pending s.resource.name values]
  known : after.known = (s.identity.map fun i =>
    ((s.resource.name, i.key), ⟨.pending w.plan.pending, values, true⟩)).toList ++ w.known
  memberships : after.memberships = w.memberships
  steps : site.Steps w after
  knows : site.Knows after.plan.commands s.resource none (.pending w.plan.pending)
  read : after.issues = [] → s.resource.values? none members = some values
  supplied : after.issues = [] → ∀ f ∈ s.resource.fields, f.requiredOnInput = true →
    (Entries.get? f.name members).isSome = true ∨ f.column ∈ linkedColumns s.resource s.position members

/-- The entity of an object that is not found is created, attached, and its relationships are walked. -/
theorem founds_of_entered {s : Scope} {op : Option DocumentOp}
    (hr : site.registry.schema.resource? s.resource.name = some s.resource) (hnew : s.known = none)
    (h : (do
      let values ← site.readFields s members
      if s.creating || mode = .replace then requireFields s members
      let reference ← site.place s members values
      site.attach s op members reference
      site.visitRelationships s reference mode members
      pure (some ⟨reference, false⟩) : Walking (Option Visited)).run.run w = (.ok visited, after)) :
    ∃ values founded attached, site.Founds s members values w founded ∧
      (site.attach s op members (.pending w.plan.pending)).run.run founded = (.ok (), attached) ∧
      (site.visitRelationships s (.pending w.plan.pending) mode members).run.run attached = (.ok (), after) ∧
      visited = some ⟨.pending w.plan.pending, false⟩ := by
  have hcreating : s.creating = true := by rw [Scope.creating, hnew]; rfl
  obtain ⟨values, read, hread, h₁⟩ := bind_eq_ok h
  rw [hcreating, Bool.true_or, if_pos rfl] at h₁
  obtain ⟨_, required, hrequire, h₂⟩ := bind_eq_ok h₁
  obtain ⟨reference, founded, hplace, h₃⟩ := bind_eq_ok h₂
  obtain ⟨_, attached, hattach, h₄⟩ := bind_eq_ok h₃
  obtain ⟨_, _, hwalk, h₅⟩ := bind_eq_ok h₄
  cases h₅
  obtain ⟨qs, hasked, hassigns⟩ := readFields_eq_ok hread
  have hrequired : site.Asked [] read required := requireFields_asked hrequire
  have hvalues := fun hclean => values?_of_readFields hread (hrequired.clean hclean)
  have hsupplied := fun hclean => supplied_of_requireFields hnew hrequire hclean
  have hboth := hasked.trans hrequired
  rw [List.append_nil] at hboth
  obtain ⟨hsteps, hknows⟩ := place_steps hr (fun k hk => by cases hnew.symm.trans hk) hboth hassigns hplace
  obtain ⟨-, found, rfl⟩ := hboth
  rw [hnew] at hvalues
  rw [Scope.existing, hnew] at hknows
  cases placing_of_place hplace with
  | create _ _ =>
    refine ⟨values, _, attached, ?_, hattach, hwalk, rfl⟩
    exact ⟨rfl, rfl, rfl, hsteps, hknows, hvalues, hsupplied⟩
  | update hold _ _ => cases hnew.symm.trans hold
  | keep hold _ => cases hnew.symm.trans hold

/-! ## Objects -/

/-- A look-up that finds nothing leaves the walk as it is. -/
theorem Finds.eq_of_none {identity : Option Identity} (hr : site.registry.schema.resource? r.name = some r)
    (h : site.Finds r identity w none after) : after = w := by
  cases identity with
  | none => exact h.2
  | some i =>
    cases looksUp_of_lookup hr h with
    | missing _ => rfl

/-- An object is looked up by the identity that it names, and entered if nothing is found. -/
theorem entered_of_openObject {opened : Opened} (hposition : position.identity? = none)
    (h : (site.openObject r path position members).run.run w = (.ok opened, after)) :
    ∃ op known found, site.Finds r (r.identityIn? members) w known found ∧
      (known = none → opened = .entered op (r.identityIn? members) none ∧ after = found) ∧
      (known ≠ none → position = .root .create → opened = .settled none ∧ after.issues ≠ []) := by
  obtain ⟨op, _, hop, h₁⟩ := bind_eq_ok h
  obtain ⟨-, rfl⟩ := liftM_eq_ok hop
  obtain ⟨identity, _, hidentity, h₂⟩ := bind_eq_ok h₁
  unfold identityOf at hidentity
  rw [hposition] at hidentity
  cases hidentity
  dsimp only at h₂
  obtain ⟨known, found, hfinds, h₃⟩ := finds_of_identity h₂
  refine ⟨op, known, found, hfinds, ?_, ?_⟩
  · rintro rfl
    dsimp only at h₃
    split at h₃
    · split at h₃ <;> cases h₃
    · cases h₃
      exact ⟨rfl, rfl⟩
  · rintro hknown rfl
    cases known with
    | none => exact absurd rfl hknown
    | some k =>
      cases h₃
      exact ⟨rfl, List.append_ne_nil_of_right_ne_nil _ (List.cons_ne_nil _ _)⟩

/-- The document of a new entity at the top. -/
theorem visit_create (hr : site.registry.schema.resource? r.name = some r)
    (h : (site.visit r path (.root .create) mode (.obj members)).run.run w = (.ok visited, after))
    (hclean : after.issues = []) :
    ∃ values founded, site.Finds r (r.identityIn? members) w none w ∧
      site.Founds ⟨r, path, .root .create, r.identityIn? members, none⟩ members values w founded ∧
      (site.visitRelationships ⟨r, path, .root .create, r.identityIn? members, none⟩
        (.pending w.plan.pending) mode members).run.run founded = (.ok (), after) ∧
      visited = some ⟨.pending w.plan.pending, false⟩ := by
  rw [visit] at h
  obtain ⟨opened, opening, hopen, h₁⟩ := bind_eq_ok h
  obtain ⟨op, known, found, hfinds, hentered, hexists⟩ := entered_of_openObject rfl hopen
  cases known with
  | none =>
    obtain ⟨rfl, rfl⟩ := hentered rfl
    obtain ⟨values, founded, attached, hfounds, hattach, hwalk, hvisited⟩ := founds_of_entered hr rfl h₁
    cases hattach
    obtain rfl := hfinds.eq_of_none hr
    exact ⟨values, founded, hfinds, hfounds, hwalk, hvisited⟩
  | some k =>
    obtain ⟨rfl, hissues⟩ := hexists (Option.some_ne_none k) rfl
    cases h₁
    exact absurd hclean hissues

end WalkSite

namespace WriteOp

open Walking

/-- The document of a creation that ends well is visited as one of a new entity. -/
theorem create_visits {site : WalkSite} {r : Resource} {members : List (String × Json)}
    {roots : List EntityRef} {w : Walk} (hr : site.registry.schema.resource? r.name = some r)
    (hrun : ((create r.name (.obj members)).walk site).run.run {} = (.ok roots, w)) (hclean : w.issues = []) :
    ∃ values founded, roots = [.pending 0] ∧
      site.Founds ⟨r, "", .root .create, r.identityIn? members, none⟩ members values {} founded ∧
      (site.visitRelationships ⟨r, "", .root .create, r.identityIn? members, none⟩ (.pending 0) .patch
        members).run.run founded = (.ok (), w) := by
  obtain ⟨_, _, hrequire, h₁⟩ := bind_eq_ok hrun
  obtain ⟨hresource, rfl⟩ := liftM_eq_ok hrequire
  cases hr.symm.trans (Schema.require_eq_ok.1 hresource)
  obtain ⟨visited, _, hvisit, h₂⟩ := bind_eq_ok h₁
  cases h₂
  obtain ⟨values, founded, -, hfounds, hwalk, rfl⟩ := WalkSite.visit_create hr hvisit hclean
  exact ⟨values, founded, rfl, hfounds, hwalk⟩

/-- The creation that a document of scalars without issues plans. -/
theorem create_plan {site : WalkSite} {r : Resource} {members : List (String × Json)}
    {roots : List EntityRef} {w : Walk} (hr : site.registry.schema.resource? r.name = some r)
    (hapart : ∀ m ∈ members, ∀ rel, r.walked? m.1 = some rel → m.2.isString = true)
    (hrun : ((create r.name (.obj members)).walk site).run.run {} = (.ok roots, w)) (hclean : w.issues = []) :
    ∃ values, r.values? none members = some values ∧ r.Supplies members ∧ roots = [.pending 0] ∧
      w.plan.commands = [.create 0 r.name values] := by
  obtain ⟨values, founded, rfl, hfounds, hwalk⟩ := create_visits hr hrun hclean
  obtain rfl := WalkSite.eq_of_visitRelationships hapart hwalk
  have hlinked : linkedColumns r (.root .create) members = [] := WalkSite.linkedColumns_root hapart
  refine ⟨values, hfounds.read hclean, fun f hf hrequired => ?_, rfl, hfounds.commands⟩
  refine (hfounds.supplied hclean f hf hrequired).resolve_right fun hmem => ?_
  rw [hlinked] at hmem
  cases hmem

end WriteOp

end NestedResources
