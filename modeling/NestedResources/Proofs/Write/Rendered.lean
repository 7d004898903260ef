import NestedResources.Proofs.Read.Reading
import NestedResources.Proofs.Write.Echo

/-!
# Rendered documents

What is rendered of a stored entity says nothing but what is stored, as deep as its embeds go, if these show
all members of relationships that may be written (`Embeds.echoes_render`). The rendered fields bring the
identity along by which an entity is found again; links are left alone.
-/
namespace NestedResources

/-- A resource whose rendered entities can be read: its names are told apart from each other and from the keys
that documents reserve, and its identities are rendered and exact. -/
structure Resource.Legible (r : Resource) : Prop where
  single : (r.relationships.map Relationship.name).Nodup
  fieldNames : ∀ f ∈ r.fields, f.name ≠ DocumentOp.key ∧ f.name ≠ selfKey
  relationshipNames : ∀ rel ∈ r.relationships, rel.name ≠ DocumentOp.key
  identityRendered : ∀ f ∈ r.identityFields, f.isRendered = true
  identityTypes : ∀ f ∈ r.identityFields, f.type.isExact = true

/-- Rows under their own keys, whose rendered values the fields accept. -/
structure Tables.Valid (t : Tables) (s : Schema) : Prop where
  filed : t.Filed s
  accepts : ∀ r, s.resource? r.name = some r → ∀ record ∈ t.rowsOf r.name, ∀ f ∈ r.fields,
    f.isRendered = true → f.Accepts record

/-- An embed that shows all members, with all their fields, of a relationship that may be written. -/
structure Embed.Plain (e : Embed) (s : Schema) (root : Resource) : Prop where
  fields : e.fields = []
  filter : e.filter = none
  unscoped : e.isScoped = false
  leads : ∃ parent rel target, s.at? root e.path.dropLast = some parent ∧
    s.step? parent (e.path.getLastD "") = some (rel, target) ∧ rel.readOnly = false

/-! ## Accepted values -/

theorem Field.Accepts.coerce {f : Field} {record : Record} {v : Json} (h : f.Accepts record)
    (hv : record.value? f.column = some v) : v ≠ .null ∧ f.valueIn record = v ∧ f.type.coerce v = .ok v := by
  have hget := Record.get?_of_value? hv
  have hnull : v ≠ .null := by
    rintro rfl
    unfold Record.value? at hv
    rw [hget] at hv
    cases hv
  have hvalue : f.valueIn record = v := by rw [Field.valueIn, hget, Option.getD_some]
  unfold Field.Accepts at h
  rw [hvalue] at h
  exact ⟨hnull, hvalue, Field.coerce_of_check hnull h⟩

/-- Equality of documents tells exact values apart, and null from them. -/
theorem Json.eq_of_same {u v : Json} (hu : u.isNull = true ∨ u.isExact = true) (h : u.same v = true) :
    u = v := by
  cases u with
  | null => cases v <;> first | rfl | cases h
  | bool a =>
    cases v with
    | bool b => exact congrArg bool (eq_of_beq h)
    | _ => cases h
  | str a =>
    cases v with
    | str b => exact congrArg str (eq_of_beq h)
    | _ => cases h
  | num m =>
    obtain ⟨k, hk⟩ := Option.isSome_iff_exists.1 (hu.resolve_left Bool.false_ne_true)
    obtain rfl := Number.toInt64?_eq_some hk
    cases v with
    | num n =>
      cases n with
      | int l => exact congrArg int (of_decide_eq_true h)
      | float x => cases h
    | _ => cases h
  | arr items => rcases hu with hu | hu <;> cases hu
  | obj members => rcases hu with hu | hu <;> cases hu

/-- Whether a field accepts what a row has is found by running its check. -/
theorem Field.accepts_of_check {f : Field} {record : Record}
    (h : (f.check f.name (f.valueIn record)).toOption.any
      (fun u => (u.isNull || u.isExact) && u.same (f.valueIn record)) = true) : f.Accepts record := by
  obtain ⟨u, hu, hsame⟩ := (Option.any_eq_true _ _).1 h
  rw [Bool.and_eq_true, Bool.or_eq_true] at hsame
  have hcheck := Except.toOption_eq_some.1 hu
  rwa [Json.eq_of_same hsame.1 hsame.2] at hcheck

/-- Identities of accepted values are exact. -/
theorem Tables.Valid.exact {t : Tables} {s : Schema} (h : t.Valid s)
    (hlegible : ∀ r, s.resource? r.name = some r → r.Legible) : t.Exact s := by
  refine fun r hr => ⟨(hlegible r hr).identityTypes, fun key record hrow => ?_⟩
  obtain ⟨i, hi, hkey⟩ := h.filed r.name key r record hr hrow
  refine ⟨i, hi, hkey, fun v hv => ?_⟩
  have hfields := (List.forall₂_and_left _ _).2
    ⟨fun f (hf : f ∈ r.identityFields) => hf, Resource.identityOf?_eq_some.1 hi⟩
  obtain ⟨f, hf, hvalue⟩ := Except.exists_of_forall₂ hfields.flip hv
  have haccepts := h.accepts r hr record (Tables.mem_rowsOf.2 ⟨key, hrow⟩) f
    (List.mem_of_find?_eq_some (Resource.field?_of_mem_identityFields hf).1)
    ((hlegible r hr).identityRendered f hf)
  obtain ⟨hnull, -, hcoerce⟩ := haccepts.coerce hvalue
  exact FieldType.isExact_of_coerce ((hlegible r hr).identityTypes f hf) hnull hcoerce

namespace Resource

variable {s : Schema} {r : Resource} {record : Record} {i : Identity}

theorem relationship?_of_mem (hsingle : (r.relationships.map Relationship.name).Nodup) {rel : Relationship}
    (hrel : rel ∈ r.relationships) : r.relationship? rel.name = some rel :=
  (List.find?_key_eq_some_iff hsingle).2 ⟨hrel, rfl⟩

theorem renderedRelationship?_of_mem (hsingle : (r.relationships.map Relationship.name).Nodup)
    {rel : Relationship} (hrel : rel ∈ r.relationships) : r.renderedRelationship? rel.name = some rel := by
  have hreverse : (r.relationships.reverse.map Relationship.name).Nodup := by
    rw [List.map_reverse]
    exact List.nodup_reverse.2 hsingle
  exact (List.find?_key_eq_some_iff hreverse).2 ⟨List.mem_reverse.2 hrel, rfl⟩

/-- A document with the stored values of the identity fields names the entity. -/
theorem identityIn?_of_stored (hi : r.identityOf? record = some i) {members : List (String × Json)}
    (h : ∀ f ∈ r.identityFields, f.Accepts record ∧
      Entries.get? f.name members = some (f.valueIn record)) : r.identityIn? members = some i := by
  have hfields := (List.forall₂_and_left _ _).2 ⟨h, identityOf?_eq_some.1 hi⟩
  refine Option.map_eq_some_iff.2 ⟨i.values, mapM_eq_some.2 (hfields.imp ?_), rfl⟩
  rintro f v ⟨⟨haccepts, hget⟩, hv⟩
  obtain ⟨hnull, hvalue, hcoerce⟩ := haccepts.coerce hv
  rw [hget, hvalue]
  split
  · rename_i h
    cases h
  · rename_i h
    exact absurd (Option.some.inj h) hnull
  · rename_i h
    cases h
    rw [hcoerce]
    rfl

/-! ## The members of a rendered entity -/

variable {style : RenderStyle} {selection : Selection} {rendered pairs : List (String × Json)}

/-- The members of a rendered entity are its fields, its URL, and its relationships. -/
structure Renders (style : RenderStyle) (r : Resource) (selection : Selection) (record : Record)
    (rendered pairs : List (String × Json)) : Prop where
  fields : ∀ f ∈ r.fields, selection.includes f = true → (f.name, f.valueIn record) ∈ pairs
  mem : ∀ e ∈ pairs, (∃ f ∈ r.fields, selection.includes f = true ∧ e = (f.name, f.valueIn record)) ∨
    e.1 = selfKey ∨ ∃ rel ∈ r.relationships,
      r.renderRelationship style (r.identityOf? record) selection rendered rel = some e

theorem exists_renders (style : RenderStyle) (r : Resource) (selection : Selection) (record : Record)
    (rendered : List (String × Json)) : ∃ pairs,
      r.renderEntity style selection record rendered = .obj (Entries.ofList pairs) ∧
        Renders style r selection record rendered pairs := by
  refine ⟨_, rfl, fun f hf hincludes => ?_, fun e he => ?_⟩
  · exact List.mem_append_left _ (List.mem_append_left _
      (List.mem_map.2 ⟨f, List.mem_filter.2 ⟨hf, hincludes⟩, rfl⟩))
  · rcases List.mem_append.1 he with he | he
    · rcases List.mem_append.1 he with he | he
      · obtain ⟨f, hf, rfl⟩ := List.mem_map.1 he
        exact .inl ⟨f, (List.mem_filter.1 hf).1, (List.mem_filter.1 hf).2, rfl⟩
      · split at he
        · obtain ⟨j, -, rfl⟩ := Option.map_eq_some_iff.1 (Option.mem_toList.1 he)
          exact .inr (.inl rfl)
        · cases he
    · exact .inr (.inr (List.mem_filterMap.1 he))

theorem name_of_renderRelationship {identity : Option Identity} {rel : Relationship} {e : String × Json}
    (h : r.renderRelationship style identity selection rendered rel = some e) : e.1 = rel.name := by
  unfold renderRelationship at h
  split at h
  · cases h
    rfl
  · split at h
    · obtain ⟨j, -, rfl⟩ := Option.map_eq_some_iff.1 h
      rfl
    · cases h

/-- A rendered field has its stored value. -/
theorem Renders.get?_field (h : Renders style r selection record rendered pairs)
    (hr : s.resource? r.name = some r) (hlegible : r.Legible) {f : Field} (hf : f ∈ r.fields)
    (hincludes : selection.includes f = true) :
    Entries.get? f.name (Entries.ofList pairs) = some (f.valueIn record) := by
  refine Entries.get?_ofList_of_mem (h.fields f hf hincludes) fun e he hname => ?_
  have hfield := field?_of_mem hr hf
  rcases h.mem e he with ⟨g, hg, -, rfl⟩ | hself | ⟨rel, hrel, hrender⟩
  · have hsame := field?_of_mem hr hg
    rw [show g.name = f.name from hname, hfield] at hsame
    cases hsame
    rfl
  · exact absurd (hname.symm.trans hself) (hlegible.fieldNames f hf).2
  · have hnone := Schema.relationship?_of_field? hr hfield
    rw [← hname, name_of_renderRelationship hrender, relationship?_of_mem hlegible.single hrel] at hnone
    cases hnone

/-- A rendered entity is an object with all of its rendered fields. -/
theorem exists_members_renderEntity (hr : s.resource? r.name = some r) (hlegible : r.Legible)
    (style : RenderStyle) (hall : selection.fields = []) (record : Record)
    (rendered : List (String × Json)) : ∃ members,
      r.renderEntity style selection record rendered = .obj members ∧
        ∀ f ∈ r.fields, f.isRendered = true → Entries.get? f.name members = some (f.valueIn record) := by
  obtain ⟨pairs, heq, hpairs⟩ := exists_renders style r selection record rendered
  refine ⟨_, heq, fun f hf hrendered => hpairs.get?_field hr hlegible hf ?_⟩
  rw [Selection.includes, hall, hrendered]
  rfl

/-- A rendered entity says what is stored, if what is rendered of its relationships does. -/
theorem echoes_renderEntity {t : Tables} (hr : s.resource? r.name = some r) (hlegible : r.Legible)
    (hvalid : t.Valid s) (hrecord : record ∈ t.rowsOf r.name) (hall : selection.fields = [])
    (hrelated : ∀ rel ∈ r.relationships, (selection.child? rel.name).isSome = true →
      EchoesMember t s r record rel.name
        ((Entries.get? rel.name rendered).getD (if rel.isMany then .arr [] else .null))) :
    Echoes t s r record (r.renderEntity style selection record rendered) := by
  obtain ⟨pairs, heq, hpairs⟩ := exists_renders style r selection record rendered
  obtain ⟨i, hi, hrow⟩ := hvalid.filed.row?_of_mem hr hrecord
  have haccepts : ∀ f ∈ r.fields, f.isRendered = true → f.Accepts record := hvalid.accepts r hr record hrecord
  have hincludes : ∀ f, selection.includes f = f.isRendered := fun f => by simp [Selection.includes, hall]
  rw [heq]
  refine .entity ⟨hrow, hi⟩ ?_ ?_ fun e he => ?_
  · refine identityIn?_of_stored hi fun f hf => ?_
    have hmem := List.mem_of_find?_eq_some (field?_of_mem_identityFields hf).1
    have hrendered := hlegible.identityRendered f hf
    exact ⟨haccepts f hmem hrendered,
      hpairs.get?_field hr hlegible hmem ((hincludes f).trans hrendered)⟩
  · rw [Option.eq_none_iff_forall_ne_some]
    intro v hv
    rcases hpairs.mem _ (Entries.mem_of_mem_ofList (Entries.mem_of_get? hv)) with
      ⟨f, hf, -, he⟩ | hself | ⟨rel, hrel, hrender⟩
    · exact (hlegible.fieldNames f hf).1 (congrArg Prod.fst he).symm
    · exact absurd hself (show DocumentOp.key ≠ selfKey by decide)
    · exact hlegible.relationshipNames rel hrel (name_of_renderRelationship hrender).symm
  · obtain ⟨key, raw⟩ := e
    rcases hpairs.mem _ (Entries.mem_of_mem_ofList he) with
      ⟨f, hf, hrendered, he⟩ | hself | ⟨rel, hrel, hrender⟩
    · cases he
      exact .field (field?_of_mem hr hf) (haccepts f hf ((hincludes f).symm.trans hrendered))
    · obtain rfl : key = selfKey := hself
      exact .url raw
    · unfold renderRelationship at hrender
      split at hrender
      · rename_i child hchild
        cases hrender
        exact hrelated rel hrel (hchild ▸ rfl)
      · split at hrender
        · obtain ⟨j, -, he⟩ := Option.map_eq_some_iff.1 hrender
          cases he
          exact .link (relationship?_of_mem hlegible.single hrel) _
        · cases hrender

end Resource

/-! ## What is rendered of relationships -/

theorem Selection.fields_ofEmbeds (es : Embeds) (levels : Nat) (fields path : List String) :
    (ofEmbeds es levels fields path).fields = fields := by
  cases levels <;> rfl

theorem Selection.child?_ofEmbeds {es : Embeds} (h : es.paths.Nodup) (levels : Nat)
    (fields path : List String) (name : String) : (ofEmbeds es (levels + 1) fields path).child? name =
      (es.get? (path ++ [name])).map fun e => ofEmbeds es levels e.fields e.path := by
  rw [← Embeds.find?_childrenOf h]
  exact Entries.get?_ofList_map (Embeds.nodup_names h path) _ name

namespace Row

variable {schema : Schema} {style : RenderStyle} {r target : Resource} {selection child : Selection}
  {rel : Relationship} {name : String}

theorem render_eq (schema : Schema) (style : RenderStyle) (r : Resource) (selection : Selection) (row : Row) :
    render schema style r selection row = r.renderEntity style selection row.record
      (renderRelated schema style r selection row.related) := by
  obtain ⟨record, related⟩ := row
  rw [render]
  rfl

theorem renderAll_eq_map (schema : Schema) (style : RenderStyle) (r : Resource) (selection : Selection)
    (rows : List Row) :
    renderAll schema style r selection rows = rows.map (render schema style r selection) := by
  induction rows with
  | nil => rfl
  | cons row rows ih => rw [renderAll, ih, List.map_cons]

/-- What members of a relationship are rendered as. -/
def renderMembers? (schema : Schema) (style : RenderStyle) (target : Resource) (child : Selection) :
    Related → Option Json
  | .absent => none
  | .one row => some (render schema style target child row)
  | .many rows => some (.arr (rows.map (render schema style target child)))

theorem get?_renderRelated_cons_of_ne {other : String} (h : other ≠ name) (members : Related)
    (rest : List (String × Related)) :
    Entries.get? name (renderRelated schema style r selection ((other, members) :: rest)) =
      Entries.get? name (renderRelated schema style r selection rest) := by
  rw [renderRelated]
  split
  · split
    · rfl
    · rw [Entries.get?, if_neg h]
    · rw [Entries.get?, if_neg h]
    · rfl
  · rfl

theorem get?_renderRelated_of_notMem {related : List (String × Related)} (h : ∀ e ∈ related, e.1 ≠ name) :
    Entries.get? name (renderRelated schema style r selection related) = none := by
  induction related with
  | nil => rw [renderRelated]; rfl
  | cons e rest ih =>
    rw [get?_renderRelated_cons_of_ne (h e List.mem_cons_self)]
    exact ih fun d hd => h d (List.mem_cons_of_mem e hd)

/-- The members that a row carries are rendered under the name of their relationship. -/
theorem get?_renderRelated (hrel : r.renderedRelationship? name = some rel)
    (htarget : schema.target? rel = some target) (hchild : selection.child? name = some child)
    {related : List (String × Related)} (h : Entries.Ordered related) :
    Entries.get? name (renderRelated schema style r selection related) =
      (Entries.get? name related).bind (renderMembers? schema style target child) := by
  induction related with
  | nil => rw [renderRelated]; rfl
  | cons e rest ih =>
    obtain ⟨other, members⟩ := e
    obtain ⟨hnext, hrest⟩ := List.pairwise_cons.1 h
    by_cases hother : other = name
    · subst hother
      have hnone : Entries.get? other (renderRelated schema style r selection rest) = none :=
        get?_renderRelated_of_notMem fun d hd hd' => String.lt_irrefl other (hd' ▸ hnext d hd)
      rw [renderRelated, Entries.get?, if_pos rfl, Option.bind_some]
      simp only [hrel, hchild, htarget]
      cases members with
      | absent => exact hnone
      | one row => exact if_pos rfl
      | many rows => exact (if_pos rfl).trans (by rw [renderAll_eq_map]; rfl)
    · rw [get?_renderRelated_cons_of_ne hother, Entries.get?, if_neg hother]
      exact ih hrest

end Row

/-! ## Embedded members -/

theorem EchoesAll.map {t : Tables} {s : Schema} {target : Resource} {render : Record → Json}
    {rows : List Record} (h : ∀ row ∈ rows, Echoes t s target row (render row)) :
    EchoesAll t s target rows (rows.map render) := by
  induction rows with
  | nil => exact .nil
  | cons row rows ih =>
    exact .cons (h row List.mem_cons_self) (ih fun other ho => h other (List.mem_cons_of_mem row ho))

/-- The members of a relationship are rendered as what is stored, if each of them is. -/
theorem EchoesMember.arrange {t : Tables} {s : Schema} {style : RenderStyle} {r target : Resource}
    {record : Record} {rel : Relationship} (hrel : r.relationship? rel.name = some rel)
    (htarget : s.target? rel = some target) (hwritable : rel.readOnly = false) {rows : List Record}
    (hrows : ∀ row, row ∈ rows ↔ row ∈ t.members s r record rel) {child : Selection} {build : Record → Row}
    (h : ∀ row ∈ rows, Echoes t s target row (Row.render s style target child (build row))) :
    EchoesMember t s r record rel.name
      ((Row.renderMembers? s style target child (rel.arrange (rows.map build))).getD
        (if rel.isMany then .arr [] else .null)) := by
  unfold Relationship.arrange
  cases hmany : rel.isMany with
  | true =>
    rw [if_pos rfl, Row.renderMembers?, Option.getD_some, List.map_map]
    exact .many hrel htarget hwritable hmany hrows (EchoesAll.map h)
  | false =>
    rw [if_neg Bool.false_ne_true, if_neg Bool.false_ne_true]
    cases rows with
    | nil =>
      refine .absent hrel htarget hwritable hmany (List.eq_nil_iff_forall_not_mem.2 fun row hrow => ?_)
      exact List.not_mem_nil ((hrows row).2 hrow)
    | cons row rows =>
      exact .one hrel htarget hwritable hmany ((hrows row).1 List.mem_cons_self) (h row List.mem_cons_self)

namespace Embeds

variable {t : Tables} {s : Schema} {sees : Resource → Record → Bool} {es : Embeds} {root r target : Resource}
  {path : List String} {record : Record} {style : RenderStyle}

/-- A plain embed shows all members. -/
theorem mem_shown (hsees : ∀ r record, sees r record = true) {e : Embed} (h : e.Plain s root)
    {rel : Relationship} {row : Record} :
    row ∈ e.shown t s sees r record rel target ↔ row ∈ t.members s r record rel := by
  rw [Embed.shown, (Embed.isScoped_eq_false h.unscoped).2, Window.apply_unbounded, Sorting.mem_sort,
    List.mem_filter]
  simp [h.filter, hsees]

/-- What is rendered of an entity with plain embeds says what is stored. -/
theorem echoes_render (hlegible : ∀ r, s.resource? r.name = some r → r.Legible) (hvalid : t.Valid s)
    (hsees : ∀ r record, sees r record = true) (hroot : s.resource? root.name = some root)
    (hsingle : es.paths.Nodup) (hplain : ∀ e ∈ es.list, e.Plain s root) (levels : Nat)
    (hat : s.at? root path = some r)
    (hrecord : record ∈ t.rowsOf r.name) :
    Echoes t s r record (Row.render s style r (.ofEmbeds es levels [] path)
      (es.nested t s sees r path record)) := by
  induction levels generalizing r path record with
  | zero =>
    have hr := Schema.resource?_of_at? hroot hat
    rw [Row.render_eq, record_nested]
    exact Resource.echoes_renderEntity hr (hlegible r hr) hvalid hrecord rfl fun rel _ h => by cases h
  | succ levels ih =>
    have hr := Schema.resource?_of_at? hroot hat
    rw [Row.render_eq, record_nested]
    refine Resource.echoes_renderEntity hr (hlegible r hr) hvalid hrecord rfl fun rel hmem hchild => ?_
    have hrel := Resource.relationship?_of_mem (hlegible r hr).single hmem
    obtain ⟨target, htarget, -, -⟩ := Schema.exists_target ⟨hr, hmem⟩
    have hstep : s.step? r rel.name = some (rel, target) := Schema.step?_eq_some.2 ⟨hrel, htarget⟩
    rw [Selection.child?_ofEmbeds hsingle, Option.isSome_map, Option.isSome_iff_exists] at hchild
    obtain ⟨e, he⟩ := hchild
    obtain ⟨hm, hpath⟩ := (get?_eq_some_iff hsingle).1 he
    have hname : e.path.getLastD "" = rel.name := by rw [hpath]; simp
    have hwritable : rel.readOnly = false := by
      obtain ⟨parent, rel', target', habove, hstep', hwritable⟩ := (hplain e hm).leads
      rw [hpath, List.dropLast_concat, hat] at habove
      cases habove
      rw [hname, hstep] at hstep'
      cases hstep'
      exact hwritable
    have hbelow : s.at? root e.path = some target := by
      rw [hpath, Schema.at?_concat hat, hstep]
      rfl
    have hchild : (Selection.ofEmbeds es (levels + 1) [] path).child? rel.name =
        some (.ofEmbeds es levels [] e.path) := by
      rw [Selection.child?_ofEmbeds hsingle, he, Option.map_some, (hplain e hm).fields]
    rw [Row.get?_renderRelated (Resource.renderedRelationship?_of_mem (hlegible r hr).single hmem) htarget hchild
      (ordered_nested ..), get?_nested hsingle, he, Option.map_some, Option.bind_some, carried, hname,
      hstep]
    have hshown : ∀ row, row ∈ e.shown t s sees r record rel target ↔ row ∈ t.members s r record rel :=
      fun row => mem_shown hsees (hplain e hm)
    refine EchoesMember.arrange hrel htarget hwritable hshown fun row hrow => ?_
    exact ih hbelow (Tables.mem_rowsOf_of_mem_members htarget ((hshown row).1 hrow))

end Embeds

end NestedResources
