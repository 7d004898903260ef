import NestedResources.Proofs.Query.Embeds
import NestedResources.Proofs.Schema.Lookup
import NestedResources.Query.OfParams
import NestedResources.Read.Reading

/-!
# What queries ask for

Reading a query embeds relationship paths and changes embeds in a few ways (`QuerySite.Alters`); what
all of these keep holds of every query that is read. So the embeds of a query are sound, and those that
are sorted or windowed lead through relationships with several members and are sorted by fields that can
be sorted on.
-/
namespace NestedResources

/-- What an embed that is read on a resource keeps to. -/
structure Embed.Admitted (schema : Schema) (r : Resource) (e : Embed) : Prop where
  toMany : e.isScoped = true → schema.LeadsToMany r e.path
  sortable : ∀ target, schema.at? r e.path = some target →
    ∀ s ∈ e.sorts, ∃ c, s.column target = .ok c

theorem Embed.Admitted.implied (schema : Schema) (r : Resource) (path : List String) :
    Embed.Admitted schema r { path } where
  toMany hscoped := absurd hscoped Bool.false_ne_true
  sortable _ _ _ hs := absurd hs List.not_mem_nil

/-- The query with a field selected, at the root or in an embed. -/
def Query.select (q : Query) (path : List String) (name : String) : Query :=
  let add (fields : List String) := if name ∈ fields then fields else fields ++ [name]
  if path = [] then { q with fields := add q.fields }
  else { q with embeds := q.embeds.modify path fun e => { e with fields := add e.fields } }

namespace QuerySite

variable {site : QuerySite} {r : Resource}

/-! ## Options of embeds -/

/-- Fields of a sort list that is read can be sorted on. -/
theorem column_of_readSorts {target : Resource} {key raw : String} {sorts : List SortKey}
    (h : readSorts target key raw = .ok sorts) {s : SortKey} (hs : s ∈ sorts) :
    ∃ c, s.column target = .ok c := by
  replace h := Except.mapM_eq_ok.1 h
  generalize SortKey.parseList raw = items at h
  induction h with
  | nil => cases hs
  | @cons item found _ _ hitem _ ih =>
    rcases List.mem_cons.1 hs with rfl | hs
    · split at hitem
      · rename_i f hf
        split at hitem
        · rename_i hsort
          cases hitem
          exact ⟨_, by rw [SortKey.column, hf]; exact if_pos hsort⟩
        · cases hitem
      · cases hitem
    · exact ih hs

/-- An option leaves the path of an embed, and sorts or windows it only if the relationship has
several members. -/
theorem readOption_spec {rel : Relationship} {target : Resource} {key : String}
    {path values : List String} {option : EmbedOption} {change : Embed → Embed}
    (h : site.readOption rel target key path values option = .ok change) (e : Embed) :
    (change e).path = e.path ∧
      ((change e).isScoped = true → e.isScoped = true ∨ rel.isMany = true) ∧
      ∀ s ∈ (change e).sorts, s ∈ e.sorts ∨ ∃ c, s.column target = .ok c := by
  have hmany : ∀ {verb : String}, refuseToOne key verb rel = .ok () → rel.isMany = true := by
    intro verb hv
    unfold refuseToOne at hv
    split at hv
    · assumption
    · cases hv
  cases option with
  | structuredFilter =>
    obtain ⟨raw, -, h⟩ := Except.bind_eq_ok.1 h
    obtain ⟨f, -, h⟩ := Except.bind_eq_ok.1 h
    cases h
    exact ⟨rfl, .inl, fun s hs => .inl hs⟩
  | flatFilter flat =>
    obtain ⟨found, -, h⟩ := Except.bind_eq_ok.1 h
    cases found with
    | none => cases h
    | some f =>
      cases h
      exact ⟨rfl, .inl, fun s hs => .inl hs⟩
  | limit =>
    obtain ⟨raw, -, h⟩ := Except.bind_eq_ok.1 h
    obtain ⟨_, hto, h⟩ := Except.bind_eq_ok.1 h
    obtain ⟨limit, -, h⟩ := Except.bind_eq_ok.1 h
    cases h
    exact ⟨rfl, fun _ => .inr (hmany hto), fun s hs => .inl hs⟩
  | offset =>
    obtain ⟨raw, -, h⟩ := Except.bind_eq_ok.1 h
    obtain ⟨_, hto, h⟩ := Except.bind_eq_ok.1 h
    split at h
    · cases h
    · cases h
      exact ⟨rfl, fun _ => .inr (hmany hto), fun s hs => .inl hs⟩
  | sorts =>
    obtain ⟨raw, -, h⟩ := Except.bind_eq_ok.1 h
    obtain ⟨_, hto, h⟩ := Except.bind_eq_ok.1 h
    obtain ⟨sorts, hsorts, h⟩ := Except.bind_eq_ok.1 h
    split at h
    · cases h
    · cases h
      exact ⟨rfl, fun _ => .inr (hmany hto), fun s hs => .inr (column_of_readSorts hsorts hs)⟩

/-! ## What may happen to embeds -/

/-- The changes that a query makes to the embed of a path. -/
inductive Alters (site : QuerySite) (r : Resource) : List String → (Embed → Embed) → Prop
  | ask (path : List String) : Alters site r path fun e => { e with explicit := true }
  | pick {path : List String} {target : Resource} {f : Field}
      (hat : site.schema.at? r path = some target) (hfield : target.field? f.name = some f)
      (hrendered : f.isRendered = true) :
      Alters site r path fun e => { e with fields := e.fields ++ [f.name] }
  | select {path : List String} {target : Resource} {f : Field}
      (hat : site.schema.at? r path = some target) (hfield : target.field? f.name = some f)
      (hreadable : f.writeOnly = false) :
      Alters site r path fun e =>
        { e with fields := if f.name ∈ e.fields then e.fields else e.fields ++ [f.name] }
  | set {path : List String} {parent target : Resource} {rel : Relationship} {key : String}
      {values : List String} {option : EmbedOption} {change : Embed → Embed} (hpath : path ≠ [])
      (hat : site.schema.at? r path.dropLast = some parent)
      (hstep : site.schema.step? parent (path.getLastD "") = some (rel, target))
      (hread : site.readOption rel target key path values option = .ok change) :
      Alters site r path change

theorem Alters.path_eq {path : List String} {change : Embed → Embed} (h : site.Alters r path change)
    (e : Embed) : (change e).path = e.path := by
  cases h with
  | ask => rfl
  | pick => rfl
  | select => rfl
  | set _ _ _ hread => exact (readOption_spec hread e).1

theorem embedPath_ne_nil {entry : String} {segments : List String} {current : Resource}
    {start path : List String} {field : Option Field} (hne : segments ≠ [] ∨ start ≠ [])
    (h : site.embedPath entry current start segments = .ok (path, field)) : path ≠ [] := by
  induction segments generalizing current start with
  | nil =>
    cases h
    exact hne.resolve_left (by simp)
  | cons segment rest ih =>
    unfold embedPath at h
    split at h
    · obtain ⟨target, -, h⟩ := Except.bind_eq_ok.1 h
      exact ih (.inr (by simp)) h
    · split at h
      · cases h
      · split at h
        · cases h
        · rename_i hstart
          split at h
          · cases h
            exact fun hnil => hstart (.inr hnil)
          · cases h

/-- An embed entry leads to a resource, and the field it may end in is rendered there. -/
theorem embedPath_spec {entry : String} {segments : List String} {current : Resource}
    {start path : List String} {field : Option Field}
    (h : site.embedPath entry current start segments = .ok (path, field)) :
    ∃ rest target, path = start ++ rest ∧ site.schema.at? current rest = some target ∧
      ∀ f ∈ field, target.field? f.name = some f ∧ f.isRendered = true := by
  induction segments generalizing current start with
  | nil =>
    cases h
    exact ⟨[], current, by simp, rfl, by simp⟩
  | cons segment segments ih =>
    unfold embedPath at h
    split at h
    · rename_i rel hrel
      obtain ⟨target, htarget, h⟩ := Except.bind_eq_ok.1 h
      obtain ⟨rest, last, rfl, hat, hfield⟩ := ih h
      refine ⟨segment :: rest, last, by simp, ?_, hfield⟩
      rw [Schema.at?, Schema.step?_eq_some.2 ⟨hrel, Schema.require_eq_ok.1 htarget⟩]
      exact hat
    · split at h
      · cases h
      · rename_i f hf
        split at h
        · cases h
        · split at h
          · rename_i hrendered
            cases h
            have hname : f.name = segment := by simpa using List.find?_some hf
            refine ⟨[], current, by simp, rfl, fun g hg => ?_⟩
            cases hg
            exact ⟨hname ▸ hf, hrendered⟩
          · cases h

/-- An entry of `fields` selects a field of the root or of an embed that is not write-only. -/
theorem addField_eq_ok {q changed : Query} {entry : String} :
    site.addField r q entry = .ok changed ↔
      ∃ hops target f, site.schema.cross entry r (Text.fields '.' entry).dropLast = .ok (hops, target) ∧
        ((Text.fields '.' entry).dropLast = [] ∨ (Text.fields '.' entry).dropLast ∈ q.embeds.paths) ∧
        target.field? ((Text.fields '.' entry).getLastD "") = some f ∧ f.writeOnly = false ∧
        changed = q.select (Text.fields '.' entry).dropLast f.name := by
  unfold addField
  constructor
  · intro h
    obtain ⟨⟨hops, target⟩, hcross, h⟩ := Except.bind_eq_ok.1 h
    dsimp only at h
    split at h
    · cases h
    · rename_i hembedded
      rw [not_and_or, not_not, Bool.not_eq_true, Bool.not_eq_false', Embeds.contains_iff] at hembedded
      split at h
      · cases h
      · rename_i f hf
        split at h
        · cases h
        · rename_i hreadable
          cases h
          exact ⟨hops, target, f, hcross, hembedded, hf, by simpa using hreadable, rfl⟩
  · rintro ⟨hops, target, f, hcross, hembedded, hf, hreadable, rfl⟩
    refine Except.bind_eq_ok.2 ⟨_, hcross, ?_⟩
    have hpresent : ¬((Text.fields '.' entry).dropLast ≠ [] ∧
        (!q.embeds.contains (Text.fields '.' entry).dropLast) = true) := by
      rwa [not_and_or, not_not, Bool.not_eq_true, Bool.not_eq_false', Embeds.contains_iff]
    dsimp only
    rw [if_neg hpresent, hf]
    dsimp only
    rw [hreadable, if_neg Bool.false_ne_true]
    rfl

/-- The field that is selected is one of the resource that its path leads to. -/
theorem selected_of_addField {q changed : Query} {entry : String}
    (h : site.addField r q entry = .ok changed) :
    ∃ target f, site.schema.at? r (Text.fields '.' entry).dropLast = some target ∧
      target.field? f.name = some f ∧ f.writeOnly = false ∧
      changed = q.select (Text.fields '.' entry).dropLast f.name := by
  obtain ⟨hops, target, f, hcross, -, hf, hreadable, rfl⟩ := addField_eq_ok.1 h
  have hname : f.name = (Text.fields '.' entry).getLastD "" := by simpa using List.find?_some hf
  exact ⟨target, f, Schema.at?_of_cross hcross, hname ▸ hf, hreadable, rfl⟩

section

variable {p : Embeds → Prop}
  (hensure : ∀ es path target, path ≠ [] → site.schema.at? r path = some target → p es →
    p (es.ensure path))
  (hmodify : ∀ es path change, site.Alters r path change → p es → p (es.modify path change))

include hensure hmodify

theorem keeps_addEmbed {es added : Embeds} {entry : String} (hes : p es)
    (h : site.addEmbed r es entry = .ok added) : p added := by
  obtain ⟨⟨path, field⟩, hpath, h⟩ := Except.bind_eq_ok.1 h
  obtain ⟨requested, hrequested, h⟩ := Except.bind_eq_ok.1 h
  have hne : path ≠ [] := embedPath_ne_nil (.inl (by simp [Text.fields, Text.split_ne_nil])) hpath
  obtain ⟨_, target, rfl, hat, hfield⟩ := embedPath_spec hpath
  have hasked : p requested := by
    unfold Embeds.request at hrequested
    split at hrequested
    · cases hrequested
    · cases hrequested
      exact hmodify _ _ _ (.ask _) (hensure _ _ target hne hat hes)
  cases field with
  | none =>
    cases h
    exact hasked
  | some f =>
    cases h
    exact hmodify _ _ _ (.pick hat (hfield f rfl).1 (hfield f rfl).2) hasked

theorem keeps_setOption {es changed : Embeds} {key : String} {path values : List String}
    {option : EmbedOption} (hes : p es)
    (h : site.setOption r es key path values option = .ok changed) : p changed := by
  obtain ⟨⟨hops, target⟩, hcross, h⟩ := Except.bind_eq_ok.1 h
  cases hlast : hops.getLast? with
  | none =>
    simp only [hlast] at h
    cases h
  | some hop =>
    simp only [hlast] at h
    obtain ⟨change, hchange, h⟩ := Except.bind_eq_ok.1 h
    cases h
    have hne : path ≠ [] := by
      rintro rfl
      cases hcross
      cases hlast
    obtain ⟨hat, hstep⟩ := Schema.step?_of_cross hcross hlast
    exact hmodify _ _ _ (.set hne hat hstep hchange)
      (hensure _ _ target hne (Schema.at?_of_cross hcross) hes)

theorem keeps_readKeys {params : Params} {keys : List String} {es found : Embeds}
    {filters : List Filter} (hes : p es)
    (h : site.readKeys r params keys es = .ok (found, filters)) : p found := by
  induction keys generalizing es filters with
  | nil =>
    cases h
    exact hes
  | cons key keys ih =>
    unfold readKeys at h
    split at h
    · exact ih hes h
    · obtain ⟨option, hoption, h⟩ := Except.bind_eq_ok.1 h
      cases option with
      | some o =>
        obtain ⟨changed, hchanged, h⟩ := Except.bind_eq_ok.1 h
        exact ih (keeps_setOption hensure hmodify hes hchanged) h
      | none =>
        obtain ⟨filter, -, h⟩ := Except.bind_eq_ok.1 h
        obtain ⟨⟨rest, others⟩, hrest, h⟩ := Except.bind_eq_ok.1 h
        cases h
        exact ih hes hrest

omit hensure in
theorem keeps_addField {q changed : Query} {entry : String} (hq : p q.embeds)
    (h : site.addField r q entry = .ok changed) : p changed.embeds := by
  obtain ⟨target, f, hat, hfield, hreadable, rfl⟩ := selected_of_addField h
  unfold Query.select
  split
  · exact hq
  · exact hmodify _ _ _ (.select hat hfield hreadable) hq

/-- What embedding a path and every change of an embed keep, holds of the embeds of every query. -/
theorem embeds_of_read {params : Params} {q : Query} (hempty : p .empty)
    (h : site.read r params = .ok q) : p q.embeds := by
  obtain ⟨window, -, h⟩ := Except.bind_eq_ok.1 h
  obtain ⟨es, hes, h⟩ := Except.bind_eq_ok.1 h
  obtain ⟨⟨found, flat⟩, hfound, h⟩ := Except.bind_eq_ok.1 h
  obtain ⟨filter, -, h⟩ := Except.bind_eq_ok.1 h
  obtain ⟨selected, hselected, h⟩ := Except.bind_eq_ok.1 h
  have hadded : p es :=
    Except.foldlM_induction (fun _ _ _ hb hstep => keeps_addEmbed hensure hmodify hb hstep) hempty hes
  have hkept : p selected.embeds :=
    Except.foldlM_induction (p := fun q : Query => p q.embeds)
      (fun _ _ _ hb hstep => keeps_addField hmodify hb hstep)
      (keeps_readKeys hensure hmodify hadded hfound) hselected
  split at h
  · cases h
    exact hkept
  · obtain ⟨sorts, -, h⟩ := Except.bind_eq_ok.1 h
    cases h
    exact hkept

end

/-! ## Sound embeds -/

/-- The embeds of a query are sound, if every embed of a chain of relationships is admitted at first and
no change takes that away. -/
theorem sound_of_read {admits : Embed → Prop} {params : Params} {q : Query}
    (hnew : ∀ path target, path ≠ [] → site.schema.at? r path = some target → admits { path })
    (halters : ∀ path change e, site.Alters r path change → e.path = path → admits e → admits (change e))
    (h : site.read r params = .ok q) : q.embeds.Sound admits := by
  refine embeds_of_read (fun es path target hne hat hes => ?_) (fun es path change hchange hes => ?_)
    .empty h
  · refine hes.ensure hne fun start hstart ⟨rest, hrest⟩ => ?_
    rw [← hrest, Schema.at?_append] at hat
    obtain ⟨between, hbetween, -⟩ := Option.bind_eq_some_iff.1 hat
    exact hnew start between hstart hbetween
  · exact hes.modify hchange.path_eq fun e hpath => halters path change e hchange hpath

theorem Alters.admitted {path : List String} {change : Embed → Embed} {e : Embed}
    (h : site.Alters r path change) (hpath : e.path = path) (he : e.Admitted site.schema r) :
    (change e).Admitted site.schema r := by
  cases h with
  | ask => exact ⟨he.toMany, he.sortable⟩
  | pick => exact ⟨he.toMany, he.sortable⟩
  | select => exact ⟨he.toMany, he.sortable⟩
  | set hne hat hstep hread =>
    obtain ⟨hkeeps, hscoped, hsorts⟩ := readOption_spec hread e
    refine ⟨fun h => ?_, fun found hfound s hs => ?_⟩
    · rw [hkeeps]
      refine (hscoped h).elim he.toMany fun hmany => ?_
      rw [hpath]
      exact ⟨_, _, _, hat, hstep, hmany⟩
    · rw [hkeeps] at hfound
      refine (hsorts s hs).elim (he.sortable found hfound s) fun hcolumn => ?_
      rw [hpath, Schema.at?_of_step? hne hat hstep] at hfound
      cases hfound
      exact hcolumn

/-- The embeds of a query are sound, whatever the parameters are. -/
theorem sound_read {params : Params} {q : Query} (h : site.read r params = .ok q) :
    q.embeds.Sound (Embed.Admitted site.schema r) :=
  sound_of_read (fun path _ _ _ => .implied site.schema r path)
    (fun _ _ _ halters hpath he => halters.admitted hpath he) h

end QuerySite

end NestedResources
