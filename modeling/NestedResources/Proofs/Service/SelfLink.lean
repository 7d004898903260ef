import NestedResources.Proofs.Schema.Spelling
import NestedResources.Proofs.Service.Routing
import NestedResources.Proofs.Store.Exact
import NestedResources.Proofs.Write.Rendered

/-!
# Links to entities

The key of an identity stands at the end of the link to its entity. Cut into segments it spells the
identity again exactly if segments spell every component of it (`Service.parseIdentity?_key_iff`). Only such
entities are what their own links lead to, and they never share a key (`Service.links_resolve_iff`).
-/
namespace NestedResources

namespace Resource

variable {s : Schema} {r : Resource} {i : Identity}

/-- A component for each identity field that coercion leaves as it is. -/
def Keeps (r : Resource) (i : Identity) : Prop :=
  List.Forall₂ (fun f v => f.type.coerce v = .ok v) r.identityFields i.values

/-- Whether path segments spell every component of an identity. -/
def spells (r : Resource) (i : Identity) : Bool :=
  (r.identityFields.zip i.values).all fun e => e.1.type.spells e.2

/-- Components that segments spell are read back from their parts of the key. -/
theorem Keeps.coerced (hkept : r.Keeps i) (hspelled : r.spells i = true) :
    List.Forall₂ (fun f v => Text.isSegment (Identity.componentKey v) = true ∧
      f.type.coerce (.str (Identity.componentKey v)) = .ok v) r.identityFields i.values := by
  unfold Keeps at hkept
  rw [spells, List.all_eq_true] at hspelled
  generalize r.identityFields = fields, i.values = values at hkept hspelled
  induction hkept with
  | nil => exact .nil
  | cons hfirst _ ih =>
    obtain ⟨hspell, hrest⟩ := List.forall_mem_cons.1 hspelled
    exact .cons (FieldType.coerce_componentKey hfirst hspell) (ih hrest)

/-- Identities that come from segments are spelled by segments. -/
theorem spells_of_parseIdentity? {segments : List String} (hsegments : ∀ s ∈ segments, Text.isSegment s = true)
    (h : r.parseIdentity? segments = some i) : r.spells i = true := by
  have hcoerced := coerced_of_parseIdentity? h
  rw [spells, List.all_eq_true]
  generalize r.identityFields = fields, i.values = values at hcoerced
  induction hcoerced with
  | nil => simp
  | cons hfirst _ ih =>
    obtain ⟨text, htext, hcoerce⟩ := hfirst
    rw [List.zip_cons_cons, List.forall_mem_cons]
    exact ⟨FieldType.spells_of_coerce (hsegments text htext) hcoerce, ih⟩

theorem length_identityFields (hr : s.resource? r.name = some r) :
    r.identityFields.length = r.identity.length := by
  obtain ⟨-, hdeclared, -, -⟩ := Schema.faultless_of_resource? hr
  rw [identityFields, List.filterMap_length_eq_length]
  exact fun id hid => Option.isSome_iff_exists.2 (hdeclared id hid)

/-- An identity is spelled by the parts of its key. -/
theorem parseIdentity?_components (hr : s.resource? r.name = some r) (hkept : r.Keeps i)
    (hspelled : r.spells i = true) :
    r.parseIdentity? (i.values.map Identity.componentKey) = some i := by
  have hlength : (i.values.map Identity.componentKey).length = r.identity.length := by
    rw [List.length_map, ← hkept.length_eq, length_identityFields hr]
  have hread : (r.identityFields.zip (i.values.map Identity.componentKey)).mapM
      (fun ((f, text) : Field × String) => (f.type.coerce (.str text)).toOption) = some i.values := by
    have hcoerced := hkept.coerced hspelled
    refine mapM_eq_some.2 ?_
    generalize r.identityFields = fields, i.values = values at hcoerced
    induction hcoerced with
    | nil => exact .nil
    | cons hfirst _ ih => exact .cons (Except.toOption_eq_some.2 hfirst.2) ih
  rw [parseIdentity?, if_pos hlength, hread]
  rfl

end Resource

/-! ## Segments of keys and links -/

namespace Service

variable {svc : Service} {ctx : Context} {r : Resource} {i : Identity}

theorem isSegment_of_mem_segmentsOf {path segment : String} (h : segment ∈ segmentsOf path) :
    Text.isSegment segment = true := by
  obtain ⟨hmem, hne⟩ := List.mem_filter.1 h
  obtain ⟨word, hword, rfl⟩ := List.mem_map.1 hmem
  refine Text.isSegment_iff.2 ⟨?_, ?_⟩
  · simpa [← String.toList_inj] using hne
  · rw [String.toList_ofList]
    exact Text.notMem_of_mem_split hword

theorem segmentsOf_append (a b : String) : segmentsOf (a ++ "/" ++ b) = segmentsOf a ++ segmentsOf b := by
  rw [segmentsOf, show "/" = String.singleton '/' from rfl, Text.fields_append, List.filter_append]
  rfl

theorem segmentsOf_of_isSegment {s : String} (h : Text.isSegment s = true) : segmentsOf s = [s] := by
  obtain ⟨hne, hfree⟩ := Text.isSegment_iff.1 h
  have hne' : s ≠ "" := fun he => hne (by rw [he]; rfl)
  rw [segmentsOf, Text.fields, Text.split_of_notMem hfree]
  simp [hne']

/-- Segments that are joined come apart again. -/
theorem segmentsOf_join {words : List String} (h : ∀ w ∈ words, Text.isSegment w = true) :
    segmentsOf (Text.join "/" words) = words := by
  induction words with
  | nil => rfl
  | cons word words ih =>
    have hword := segmentsOf_of_isSegment (h word List.mem_cons_self)
    cases words with
    | nil => exact hword
    | cons w ws =>
      rw [Text.join, segmentsOf_append, hword, ih fun v hv => h v (List.mem_cons_of_mem word hv)]
      · rfl
      · exact List.cons_ne_nil w ws

theorem segmentsOf_key (hkept : r.Keeps i) (hspelled : r.spells i = true) :
    segmentsOf i.key = i.values.map Identity.componentKey := by
  refine segmentsOf_join fun word hword => ?_
  obtain ⟨v, hv, rfl⟩ := List.mem_map.1 hword
  obtain ⟨f, hsegment, -⟩ := Except.exists_of_forall₂ (hkept.coerced hspelled).flip hv
  exact hsegment

/-- The key of an identity spells it again exactly if segments spell every component. -/
theorem parseIdentity?_key_iff (hr : svc.schema.resource? r.name = some r) (hkept : r.Keeps i) :
    r.parseIdentity? (segmentsOf i.key) = some i ↔ r.spells i = true := by
  refine ⟨Resource.spells_of_parseIdentity? fun s => isSegment_of_mem_segmentsOf, fun hspelled => ?_⟩
  rw [segmentsOf_key hkept hspelled, Resource.parseIdentity?_components hr hkept hspelled]

/-- Whatever entity a path leads to, segments spell its identity. -/
theorem finds_route_spelt (svc : Service) (ctx : Context) (path : String) :
    (svc.route ctx path).Finds fun route => ∀ r i, route = .entity r i → r.spells i = true := by
  have htake : ∀ path r segments i, (∀ s ∈ segments, Text.isSegment s = true) →
      takeIdentity path r segments = .ok i → r.spells i = true := by
    intro path r segments i hsegments h
    rw [takeIdentity_eq] at h
    split at h
    · rename_i hparse
      cases h
      exact Resource.spells_of_parseIdentity? (fun s hs => hsegments s (List.mem_of_mem_take hs)) hparse
    · cases h
  have hpath : ∀ s ∈ segmentsOf path, Text.isSegment s = true := fun s => isSegment_of_mem_segmentsOf
  unfold route
  split
  · exact Serving.finds_throw _ _
  · rename_i name rest hsegments
    have hrest : ∀ s ∈ rest, Text.isSegment s = true := fun s hs =>
      hpath s (hsegments ▸ List.mem_cons_of_mem name hs)
    refine (Serving.finds_liftM fun _ _ => trivial).bind fun r _ => ?_
    split
    · exact Serving.finds_pure fun _ _ hroute => by cases hroute
    · refine (Serving.finds_liftM fun i hi => htake path r rest i hrest hi).bind fun i hi => ?_
      refine svc.finds_follow_of ctx (fun s => Text.isSegment s = true) (fun r i => r.spells i = true) htake
        ?_ ?_ ?_ ?_ path r i _ (fun s hs => hrest s (List.mem_of_mem_drop hs)) (.inr hi)
      · rintro r i h _ _ ⟨⟩
        exact h
      · rintro _ _ _ _ _ ⟨⟩
      · rintro _ _ _ _ _ _ _ ⟨⟩
      · rintro _ _ _ _ _ _ _ _ ⟨⟩

/-- The link to an entity leads to that entity exactly if segments spell its identity. -/
theorem route_entityUrl_iff (hr : svc.schema.resource? r.name = some r) (hname : Text.isSegment r.name = true)
    (hstart : svc.style.urlStart = "") (hkept : r.Keeps i) (d : Desk) :
    (svc.route ctx (svc.style.entityUrl r.name i)).on d = (.ok (.entity r i), d) ↔ r.spells i = true := by
  have hsegments : segmentsOf (svc.style.entityUrl r.name i) = r.name :: (segmentsOf i.key ++ []) := by
    rw [RenderStyle.entityUrl, segmentsOf_append, segmentsOf_append, segmentsOf_of_isSegment hname, hstart,
      List.append_nil]
    rfl
  constructor
  · intro h
    refine (svc.finds_route_spelt ctx _ d).2 (.entity r i) (congrArg Prod.fst h) r i rfl
  · intro hspelled
    have hnamed := (parseIdentity?_key_iff hr hkept).2 hspelled
    rw [route_on_entity hr hsegments hnamed, follow]
    rfl

end Service

/-! ## Links of rendered entities -/

/-- A rendered entity has the link to itself under `self`, if no relationship has that name. -/
theorem Row.get?_self_render {schema : Schema} {style : RenderStyle} {r : Resource} {i : Identity} {row : Row}
    (hlinks : style.links = true) (hself : r.relationship? "self" = none)
    (hi : r.identityOf? row.record = some i) (selection : Selection) :
    (render schema style r selection row).get? "self" = some (.str (style.entityUrl r.name i)) := by
  rw [render_eq, Resource.renderEntity, hi, if_pos hlinks, List.append_assoc]
  refine Entries.get?_ofList_append_of_mem _ (List.mem_cons_self) fun e he hname => ?_
  rcases List.mem_cons.1 he with rfl | he
  · rfl
  · obtain ⟨rel, hrel, he⟩ := List.mem_filterMap.1 he
    rw [Resource.name_of_renderRelationship he] at hname
    have hnone := List.find?_eq_none.1 hself rel hrel
    exact absurd (decide_eq_true hname) hnone

namespace Service

variable {svc : Service} {r : Resource}

/-- The key of an identity whose components coercion leaves as they are spells that identity again exactly if
segments spell every component. Such identities do not share keys, and in exactly these cases the link that a
rendered entity carries leads to that entity. -/
theorem links_resolve_iff (ctx : Context) (hr : svc.schema.resource? r.name = some r) :
    (∀ i, r.Keeps i → (r.parseIdentity? (segmentsOf i.key) = some i ↔ r.spells i = true)) ∧
    (∀ i j, r.Keeps i → r.Keeps j → r.spells i = true → r.spells j = true → i.key = j.key → i = j) ∧
    (Text.isSegment r.name = true → svc.style = ⟨true, ""⟩ → r.relationship? "self" = none →
      ∀ (row : Row) (i : Identity) (selection : Selection) (d : Desk), r.identityOf? row.record = some i →
        r.Keeps i → ∃ link,
          (row.render svc.schema svc.style r selection).get? "self" = some (.str link) ∧
          ((svc.route ctx link).on d = (.ok (.entity r i), d) ↔ r.spells i = true)) := by
  refine ⟨fun i => parseIdentity?_key_iff hr, fun i j hi hj hispelled hjspelled hkey => ?_, ?_⟩
  · have hsame := (parseIdentity?_key_iff hr hi).2 hispelled
    rw [hkey, (parseIdentity?_key_iff hr hj).2 hjspelled] at hsame
    exact (Option.some.inj hsame).symm
  · intro hname hstyle hself row i selection d hi hkept
    refine ⟨_, Row.get?_self_render (by rw [hstyle]) hself hi selection, ?_⟩
    exact route_entityUrl_iff hr hname (by rw [hstyle]) hkept d

end Service

namespace Music

/-- Pressings of a record by label and speed. -/
def pressings : Resource where
  name := "pressings"
  identity := ["label", "speed"]
  fields := [field "label" .string, field "speed" .number]

/-- Releases by label and catalogue code. -/
def releases : Resource where
  name := "releases"
  identity := ["label", "code"]
  fields := [field "label" .string, field "code" .string]

/-- A shop that sells them, with links. -/
def vinyl : Service where
  registry := {
    schema := {
      table := .ofList [("pressings", pressings), ("releases", releases)]
      named := by decide +kernel
      faultless := by decide +kernel }
    gates := []
    relationshipGates := [] }
  style := { links := true }

/-- Thirty-three and three tenths turns a minute. -/
def slowSpeed : Binary64 := ⟨false, 4686558362232422, -47, by decide⟩

def slowPressing : Identity := ⟨[.str "4AD", .num (.float slowSpeed)]⟩

def slowRecord : Record := .ofList [("label", .str "4AD"), ("speed", .num (.float slowSpeed))]

def vinylDesk : Desk := ⟨⟨Tables.empty.putRow "pressings" slowPressing.key slowRecord, 0⟩, []⟩

theorem slow_pressing_link_resolves :
    pressings.parseIdentity? (Service.segmentsOf slowPressing.key) = some slowPressing ∧ ∃ link,
      vinylDesk.store.tables.row? "pressings" slowPressing = some slowRecord ∧
      ((Row.mk slowRecord []).render vinyl.schema vinyl.style pressings default).get? "self" = some (.str link) ∧
      (vinyl.route .empty link).on vinylDesk = (.ok (.entity pressings slowPressing), vinylDesk) := by
  have hpressings : vinyl.schema.resource? pressings.name = some pressings := by decide +kernel
  obtain ⟨hparse, -, hlinks⟩ := Service.links_resolve_iff .empty hpressings
  have hkept : pressings.Keeps slowPressing := .cons rfl (.cons rfl .nil)
  have hspelled : pressings.spells slowPressing = true := by decide
  obtain ⟨link, hself, hroute⟩ := hlinks (by decide) rfl (by decide) (.mk slowRecord []) slowPressing default
    vinylDesk rfl hkept
  exact ⟨(hparse slowPressing hkept).2 hspelled, link, Tables.rowAt?_putRow_self .., hself, hroute.2 hspelled⟩

/-- A release whose label has the separator in it, and one whose code has. -/
def jointLabel : Identity := ⟨[.str "4AD/Beggars", .str "12"]⟩

def jointCode : Identity := ⟨[.str "4AD", .str "Beggars/12"]⟩

/-- Coercion leaves both as they are and they share a key. It spells neither of them, and nothing is found at
the link that ends in it. -/
theorem joint_releases_share_key :
    releases.Keeps jointLabel ∧ releases.Keeps jointCode ∧ jointLabel ≠ jointCode ∧
      jointLabel.key = jointCode.key ∧
      (releases.parseIdentity? (Service.segmentsOf jointLabel.key)).isNone = true ∧
      ((vinyl.route .empty (vinyl.style.entityUrl "releases" jointLabel)).on vinylDesk).1.isOk = false := by
  have hkept : ∀ label code : String, releases.Keeps ⟨[.str label, .str code]⟩ := fun _ _ =>
    .cons rfl (.cons rfl .nil)
  have hdiffer : jointLabel ≠ jointCode := fun h =>
    absurd (congrArg (fun i : Identity => i.values.map Identity.componentKey) h) (by decide)
  exact ⟨hkept _ _, hkept _ _, hdiffer, by decide, by decide +kernel, by decide +kernel⟩

end Music

end NestedResources
