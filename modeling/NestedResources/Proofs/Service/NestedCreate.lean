import NestedResources.Demo.Music
import NestedResources.Proofs.Service.Serving
import NestedResources.Proofs.Write.Children
import NestedResources.Proofs.Write.NewMember

/-!
# A nested creation and the separate ones

A document of a new entity may bring new members of its relationships along. Its plan refers to all of
them by slots, which the commit resolves. If the entity is created first and each member is added by an
update of its own, the plans refer to the entity by its identity, and every look-up goes to the tables as
they are by then. Both end with the same store (`WriteOp.nested_create_eq_separate`), if the rows end up
under their own keys. A link writes its columns unchecked, so one that is kept in a part of an identity may
leave a row under a key that is not its own; there the two part ways.
-/
namespace NestedResources

/-- A child of scalars that hangs off a relationship to many. -/
structure Child.HangsOff (c : Child) (s : Schema) (r : Resource) : Prop where
  walked : r.walked? c.relationship.name = some c.relationship
  leads : s.target? c.relationship = some c.target
  many : c.relationship.isMany = true
  spares : c.relationship.SparesOwner r
  names : c.target.NamesExactly
  scalars : c.target.WritesScalars c.members

/-- The update of an entity that adds one child. -/
def Child.addition (c : Child) (r : Resource) (i : Identity) : WriteOp :=
  .update r.name i (.obj [(c.relationship.name, .arr [c.document])]) .patch

/-- A document of a new entity whose relationships list new entities of scalars, none of them named
twice. -/
structure Resource.Nests (r : Resource) (s : Schema) (t : Tables) (members : List (String × Json)) : Prop where
  names : r.NamesExactly
  arrays : ∀ m ∈ members, ∀ rel, r.walked? m.1 = some rel → rel.isMany = true ∧ ∃ items, m.2 = .arr items
  new : ∀ c ∈ r.children s members, c.IsNew t
  spares : ∀ c ∈ r.children s members, c.relationship.SparesOwner r
  distinct : (((r.identityIn? members).map fun i => (r.name, i.key)).toList ++
    Child.names (r.children s members)).Nodup

theorem Resource.Nests.hangsOff {r : Resource} {s : Schema} {t : Tables} {members : List (String × Json)}
    (h : r.Nests s t members) {c : Child} (hc : c ∈ r.children s members) : c.HangsOff s r := by
  obtain ⟨m, hm, hwalked, hleads⟩ := Resource.of_mem_children hc
  have hname := Resource.name_of_relationship? (Resource.relationship?_of_walked? hwalked)
  exact ⟨hname ▸ hwalked, hleads, (h.arrays m hm _ hwalked).1, h.spares c hc, (h.new c hc).names,
    (h.new c hc).scalars⟩

namespace WriteOp

variable {g : Registry} {ctx : Context} {r : Resource} {c : Child} {values : Record} {i : Identity}
  {p q after : Progress} {slot : Nat} {parent : EntityRef} {d next : Desk}

/-! ## One child -/

/-- The first of some children is created, and then linked. -/
theorem exists_steps_of_births {s : Schema} {resource : String} {born : List (Child × Record)}
    (h : (births resource parent slot ((c, values) :: born)).foldlM (Progress.apply s) p = .ok after) :
    ∃ q linked, p.createRow s slot c.target.name values = .ok q ∧
      q.addMember s ⟨resource, c.relationship.name, parent, .pending slot⟩ = .ok linked ∧
      (births resource parent (slot + 1) born).foldlM (Progress.apply s) linked = .ok after := by
  rw [births, List.foldlM_cons] at h
  obtain ⟨q, hcreate, h⟩ := Except.bind_eq_ok.1 h
  rw [List.foldlM_cons] at h
  obtain ⟨linked, hlink, h⟩ := Except.bind_eq_ok.1 h
  exact ⟨q, linked, hcreate, hlink, h⟩

/-- A child is created and linked by an update of its own as it is in the middle of a plan. -/
theorem addition_agrees {o : Outcome} (hr : g.schema.resource? r.name = some r)
    (hchild : c.HangsOff g.schema r) (hwrites : c.Writes values) (hpinpoints : p.tables.Pinpoints r i)
    (hfiled : p.tables.FiledExactly c.target) (hstore : d.store = p.store) (hparent : p.resolve parent = .ok i)
    (hcreate : p.createRow g.schema slot c.target.name values = .ok q)
    (hlink : q.addMember g.schema ⟨r.name, c.relationship.name, parent, .pending slot⟩ = .ok after)
    (hcommit : (Serving.commit g ctx (c.addition r i).walk).on d = (.ok o, next)) :
    next.store = after.store := by
  have htarget := Schema.resource?_of_target? hchild.leads
  -- The key that the child names is free, since its row could be filed there.
  have hfree : ∀ j, c.target.identityIn? c.members = some j → p.tables.row? c.target.name j = none :=
    fun j hj => (Progress.createRow_named htarget
      (hchild.names.identityOf?_values hchild.scalars.nodup hwrites hj) hcreate).2.1
  obtain ⟨roots, w, done, hrun, hclean, happly, hnext⟩ := Serving.exists_progress_of_commit_ok hcommit
  have htables : d.store.tables = p.tables := congrArg Store.tables hstore
  rw [htables] at hrun
  obtain ⟨values', hwrites', hcommands⟩ := @update_birth ⟨g, ctx, p.tables⟩ r roots w i c hr hchild.walked
    hchild.leads hchild.many hpinpoints ⟨hchild.names, hfiled, hchild.scalars, hfree⟩ hrun hclean
  cases hwrites.symm.trans hwrites'
  rw [hcommands] at happly
  obtain ⟨created, _, hcreate', hlink', hdone⟩ := exists_steps_of_births happly
  cases hdone
  obtain ⟨hagree, rfl, -, j, hcreated, hcreated'⟩ := Progress.createRow_agrees htarget hstore hcreate hcreate'
  rw [hnext]
  exact Progress.addMember_store hlink hlink' hagree rfl rfl
    ⟨Progress.resolve_created hcreated hparent, rfl, rfl⟩
    ⟨Progress.resolve_next hcreated, Progress.resolve_next hcreated', rfl⟩

/-! ## All children -/

/-- New children leave the identities of all rows that were there. -/
theorem keepsIdentities_births {born : List (Child × Record)} {other : Resource}
    (hother : g.schema.resource? other.name = some other) (hr : g.schema.resource? r.name = some r)
    (hborn : ∀ b ∈ born, b.1.HangsOff g.schema r)
    (happly : (births r.name parent slot born).foldlM (Progress.apply g.schema) p = .ok after) :
    p.tables.KeepsIdentities after.tables other := by
  induction born generalizing p slot with
  | nil =>
    cases happly
    exact .refl _ _
  | cons b born ih =>
    obtain ⟨q, linked, hcreate, hlink, happly⟩ := exists_steps_of_births happly
    have hchild := hborn _ List.mem_cons_self
    have hfirst := Progress.keepsIdentities_member hother hr (Resource.relationship?_of_walked? hchild.walked)
      hchild.leads hchild.spares hcreate rfl hlink
    exact hfirst.trans (ih (fun b hb => hborn b (List.mem_cons_of_mem _ hb)) happly)

/-- Children are created and linked one by one as they are by one plan, if the rows end under their own
keys. -/
theorem additions_agree {born : List (Child × Record)} {done : Desk} {os : List Outcome}
    (hr : g.schema.resource? r.name = some r) (hnames : r.NamesExactly) (hexact : i.IsExact)
    (hlength : i.values.length = r.identityFields.length)
    (hborn : ∀ b ∈ born, b.1.HangsOff g.schema r ∧ b.1.Writes b.2) (hfiled : after.tables.FiledExactly r)
    (hfiledChildren : ∀ b ∈ born, after.tables.FiledExactly b.1.target) (hstore : d.store = p.store)
    (hparent : p.resolve parent = .ok i)
    (happly : (births r.name parent slot born).foldlM (Progress.apply g.schema) p = .ok after)
    (hitems : Serving.on ((born.map Prod.fst).mapM fun c => Serving.commit g ctx (c.addition r i).walk) d =
      (.ok os, done)) :
    done.store = after.store := by
  induction born generalizing p slot d os with
  | nil =>
    cases happly
    cases hitems
    exact hstore
  | cons b born ih =>
    have hkeeps : ∀ other : Resource, g.schema.resource? other.name = some other →
        after.tables.FiledExactly other → p.tables.FiledExactly other := fun _ hother =>
      (keepsIdentities_births hother hr (fun b hb => (hborn b hb).1) happly).filedExactly
    obtain ⟨q, linked, hcreate, hlink, happly⟩ := exists_steps_of_births happly
    rw [List.map_cons, List.mapM_cons, Serving.bind_on] at hitems
    split at hitems
    · rename_i o next hfirst
      rw [Serving.bind_on] at hitems
      split at hitems
      · rename_i rest others hrest
        cases hitems
        obtain ⟨hchild, hwrites⟩ := hborn _ List.mem_cons_self
        have htarget := Schema.resource?_of_target? hchild.leads
        have hpinpoints := (hkeeps r hr hfiled).pinpoints_of_isExact hnames.exact hexact hlength g.schema
        have hfirst := addition_agrees hr hchild hwrites hpinpoints
          (hkeeps _ htarget (hfiledChildren _ List.mem_cons_self)) hstore hparent hcreate hlink hfirst
        obtain ⟨_, -, -, i, hcreated, -⟩ := Progress.createRow_agrees htarget rfl hcreate hcreate
        have hlinked := (Progress.created_addMember hlink).trans hcreated
        exact ih (fun b hb => hborn b (List.mem_cons_of_mem _ hb))
          (fun b hb => hfiledChildren b (List.mem_cons_of_mem _ hb)) hfirst
          (Progress.resolve_created hlinked hparent) happly hrest
      · cases hitems
    · cases hitems

/-- A creation of scalars that is committed, with the identity that it answers. -/
theorem exists_created_of_commit_ok {members : List (String × Json)} {o : Outcome}
    (hr : g.schema.resource? r.name = some r) (hnames : r.NamesExactly)
    (hapart : ∀ m ∈ members, ∀ rel, r.walked? m.1 = some rel → m.2.isString = true)
    (h : (Serving.commit g ctx (create r.name (.obj members)).walk).on d = (.ok o, next)) :
    ∃ values p record i, r.values? none members = some values ∧
      Progress.createRow { store := d.store } g.schema 0 r.name values = .ok p ∧ next.store = p.store ∧
      r.identityOf? record = some i ∧ i.IsExact ∧ p.created = [i] ∧ o.identities = [i] := by
  obtain ⟨roots, w, p, hrun, hclean, happly, hfull, hstore⟩ := Serving.exists_full_progress_of_commit_ok h
  obtain ⟨values, hvalues, -, rfl, hcommands⟩ := create_plan hr hapart hrun hclean
  have hanswer := h.symm.trans (Serving.commit_of_plan hrun hclean happly hfull)
  rw [hcommands, List.foldlM_cons] at happly
  obtain ⟨_, hcreate, hdone⟩ := Except.bind_eq_ok.1 happly
  cases hdone
  obtain ⟨record, i, hi, hexact, -, -, hcreated⟩ := hnames.files hr hvalues hcreate
  refine ⟨values, p, record, i, hvalues, hcreate, hstore, hi, hexact, hcreated, ?_⟩
  rw [Except.ok.inj (Prod.mk.inj hanswer).1, Outcome.ofReport, hcreated]
  rfl

/-- The creation of an entity alone, and the additions of its children one by one. -/
def separately (g : Registry) (ctx : Context) (r : Resource) (members : List (String × Json)) :
    Serving (List Outcome) := do
  let first ← Serving.commit g ctx (create r.name (.obj (r.scalars members))).walk
  let others ← first.identities.mapM fun i =>
    (r.children g.schema members).mapM fun c => Serving.commit g ctx (c.addition r i).walk
  pure (first :: others.flatten)

/-- The separate writes are committed in two parts: the entity, and then its children. -/
theorem exists_parts_of_separately {members : List (String × Json)} {os : List Outcome} {done : Desk}
    (hr : g.schema.resource? r.name = some r) (hnames : r.NamesExactly)
    (h : (separately g ctx r members).on d = (.ok os, done)) :
    ∃ values p record i begun others, r.values? none members = some values ∧
      Progress.createRow { store := d.store } g.schema 0 r.name values = .ok p ∧ begun.store = p.store ∧
      r.identityOf? record = some i ∧ i.IsExact ∧ p.created = [i] ∧
      Serving.on ((r.children g.schema members).mapM fun c => Serving.commit g ctx (c.addition r i).walk)
        begun = (.ok others, done) := by
  have hapart : ∀ m ∈ r.scalars members, ∀ rel, r.walked? m.1 = some rel → m.2.isString = true := by
    intro m hm rel hrel
    have hnone := (List.mem_filter.1 hm).2
    rw [hrel] at hnone
    cases hnone
  unfold separately at h
  rw [Serving.bind_on] at h
  split at h
  · rename_i first begun hfirst
    obtain ⟨values, p, record, i, hvalues, hcreate, hstore, hi, hexact, hcreated, hidentities⟩ :=
      exists_created_of_commit_ok hr hnames hapart hfirst
    rw [Resource.values?_scalars] at hvalues
    rw [hidentities, Serving.bind_on] at h
    split at h
    · rename_i lists next hlists
      cases h
      rw [List.mapM_cons, Serving.bind_on] at hlists
      split at hlists
      · rename_i others _ hothers
        cases hlists
        exact ⟨values, p, record, i, begun, others, hvalues, hcreate, hstore, hi, hexact, hcreated, hothers⟩
      · cases hlists
    · cases h
  · cases h

/-- A nested creation that leaves rows under their own keys ends with the same store as the creation of the
entity alone and the additions of its children one by one, if all of them are committed. -/
theorem nested_create_eq_separate {members : List (String × Json)} {o : Outcome} {os : List Outcome}
    {whole done : Desk} (hr : g.schema.resource? r.name = some r)
    (hnests : r.Nests g.schema d.store.tables members)
    (hwhole : (Serving.commit g ctx (create r.name (.obj members)).walk).on d = (.ok o, whole))
    (hfiled : whole.store.tables.FiledExactly r)
    (hfiledChildren : ∀ c ∈ r.children g.schema members, whole.store.tables.FiledExactly c.target)
    (hseparate : (separately g ctx r members).on d = (.ok os, done)) : done.store = whole.store := by
  obtain ⟨roots, w, after, hrun, hclean, happly, hstore⟩ := Serving.exists_progress_of_commit_ok hwhole
  obtain ⟨values, born, hvalues, hborn, hwrites, hcommands⟩ := @create_births ⟨g, ctx, d.store.tables⟩ r members
    roots w hr hnests.arrays hnests.new hnests.distinct hrun hclean
  obtain ⟨_, p, record, i, begun, others, hvalues', hcreate, hbegun, hi, hexact, hcreated, hitems⟩ :=
    exists_parts_of_separately hr hnests.names hseparate
  cases hvalues.symm.trans hvalues'
  rw [hcommands, List.foldlM_cons] at happly
  obtain ⟨_, hcreate', happly⟩ := Except.bind_eq_ok.1 happly
  cases hcreate.symm.trans hcreate'
  have hmem : ∀ b ∈ born, b.1 ∈ r.children g.schema members := fun b hb => hborn ▸ List.mem_map_of_mem hb
  rw [hstore] at hfiled hfiledChildren ⊢
  rw [← hborn] at hitems
  exact additions_agree hr hnests.names hexact (Resource.identityOf?_eq_some.1 hi).length_eq.symm
    (fun b hb => ⟨hnests.hangsOff (hmem b hb), hwrites b hb⟩) hfiled (fun b hb => hfiledChildren _ (hmem b hb))
    hbegun (Progress.resolve_next (p := { store := d.store }) hcreated) happly hitems

end WriteOp

namespace Music

/-- What is held by the number of an order. -/
def heldByOrder (name : String) : Relationship where
  name := name
  target := name
  cardinality := .oneToMany
  join := .reverse ["order_id"] ["order_id"]

/-- Orders with lines that are numbered within an order, and with notes. -/
def orders : Resource where
  name := "orders"
  identity := ["order_id"]
  fields := [field "order_id" .integer]
  relationships := [heldByOrder "lines", heldByOrder "notes"]

def lines : Resource where
  name := "lines"
  identity := ["order_id", "number"]
  fields := [field "order_id" .integer, field "number" .integer]

def notes : Resource where
  name := "notes"
  identity := ["note_id"]
  fields := [key "note_id", named "text" 40, { field "order_id" .integer with optional := true }]

/-- A shop, open to everybody. -/
def shop : Registry where
  schema := {
    table := .ofList [("lines", lines), ("notes", notes), ("orders", orders)]
    named := by decide +kernel
    faultless := by decide +kernel }
  gates := []
  relationshipGates := []

def createOrder (members : List (String × Json)) : Except Error Outcome × Desk :=
  (Serving.commit shop ⟨.empty⟩ (WriteOp.create "orders" (.obj members)).walk).on ⟨default, []⟩

def gatherOrder (members : List (String × Json)) : Except Error (List Outcome) × Desk :=
  (WriteOp.separately shop ⟨.empty⟩ orders members).on ⟨default, []⟩

def line (order number : Int) : List (String × Json) := [("number", .int number), ("order_id", .int order)]

def note : List (String × Json) := [("text", .str "gift")]

/-- An order with two lines and a note, which gets its number from the store. -/
def newOrder : List (String × Json) :=
  [("lines", .arr [.obj (line 5 1), .obj (line 5 2)]), ("notes", .arr [.obj note]), ("order_id", .int 5)]

theorem children_newOrder : orders.children shop.schema newOrder =
    [⟨heldByOrder "lines", lines, .obj (line 5 1)⟩, ⟨heldByOrder "lines", lines, .obj (line 5 2)⟩,
      ⟨heldByOrder "notes", notes, .obj note⟩] := by
  have hlines : orders.walked? "lines" = some (heldByOrder "lines") := by decide +kernel
  have hnotes : orders.walked? "notes" = some (heldByOrder "notes") := by decide +kernel
  have htarget : shop.schema.target? (heldByOrder "lines") = some lines := by decide +kernel
  have hother : shop.schema.target? (heldByOrder "notes") = some notes := by decide +kernel
  rw [Resource.children, newOrder, List.flatMap_cons, List.flatMap_cons, List.flatMap_cons, List.flatMap_nil,
    Resource.childrenAt_items hlines htarget, Resource.childrenAt_items hnotes hother,
    Resource.childrenAt_of_not_walked (by decide +kernel)]
  rfl

theorem nests_newOrder : orders.Nests shop.schema Tables.empty newOrder where
  names := ⟨by decide +kernel, by decide +kernel, by decide +kernel⟩
  arrays := by
    intro m hm rel hrel
    simp only [newOrder, List.mem_cons, List.not_mem_nil, or_false] at hm
    rcases hm with rfl | rfl | rfl
    · cases (show orders.walked? "lines" = some (heldByOrder "lines") by decide +kernel).symm.trans hrel
      exact ⟨rfl, _, rfl⟩
    · cases (show orders.walked? "notes" = some (heldByOrder "notes") by decide +kernel).symm.trans hrel
      exact ⟨rfl, _, rfl⟩
    · cases (show orders.walked? "order_id" = none by decide +kernel).symm.trans hrel
  new := by
    rw [children_newOrder]
    intro c hc
    simp only [List.mem_cons, List.not_mem_nil, or_false] at hc
    rcases hc with rfl | rfl | rfl <;>
      exact ⟨⟨by decide +kernel, by decide +kernel, by decide +kernel⟩, by decide +kernel,
        ⟨by decide +kernel, fun h => (by cases h), by decide +kernel⟩, fun _ _ => rfl⟩
  spares := by
    rw [children_newOrder]
    intro c hc own referenced hjoin
    simp only [List.mem_cons, List.not_mem_nil, or_false] at hc
    rcases hc with rfl | rfl | rfl <;> cases hjoin
  distinct := by
    rw [children_newOrder]
    decide +kernel

theorem nested_create_eq_separate_newOrder :
    (createOrder newOrder).1.isOk = true ∧ (gatherOrder newOrder).1.isOk = true ∧
      (gatherOrder newOrder).2.store = (createOrder newOrder).2.store := by
  have hnested : (createOrder newOrder).1.isOk = true := by decide +kernel
  have hseparate : (gatherOrder newOrder).1.isOk = true := by decide +kernel
  have hfiled : ∀ r ∈ [orders, lines, notes], (createOrder newOrder).2.store.tables.FiledExactly r := by
    decide +kernel
  refine ⟨hnested, hseparate, ?_⟩
  rcases hone : createOrder newOrder with ⟨result, whole⟩
  rcases hmany : gatherOrder newOrder with ⟨results, done⟩
  rw [hone] at hnested hfiled
  rw [hmany] at hseparate
  obtain ⟨o, rfl⟩ := Except.exists_of_isOk hnested
  obtain ⟨os, rfl⟩ := Except.exists_of_isOk hseparate
  refine WriteOp.nested_create_eq_separate (r := orders) (by decide +kernel) nests_newOrder hone
    (hfiled _ (by decide)) (fun c hc => hfiled _ ?_) hmany
  rw [children_newOrder] at hc
  simp only [List.mem_cons, List.not_mem_nil, or_false] at hc
  rcases hc with rfl | rfl | rfl <;> decide

/-- An order with a line that is numbered within another one, and a line of its own. -/
def strayOrder : List (String × Json) :=
  [("lines", .arr [.obj (line 7 1), .obj (line 5 1)]), ("order_id", .int 5)]

/-- The first line moves to the order by its link, but not to another key. The second one is then found in
its place when it is added later, but created when both are created at once. -/
theorem line_lost : (createOrder strayOrder).1.isOk = true ∧ (gatherOrder strayOrder).1.isOk = true ∧
    ((createOrder strayOrder).2.store.tables.rowAt? "lines" "5/1").isSome = true ∧
    ((gatherOrder strayOrder).2.store.tables.rowAt? "lines" "5/1").isSome = false := by
  refine ⟨?_, ?_, ?_, ?_⟩
  · decide +kernel
  · decide +kernel
  · decide +kernel
  · decide +kernel

end Music

end NestedResources
