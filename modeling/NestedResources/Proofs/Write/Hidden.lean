import NestedResources.Proofs.Service.NonInterference
import NestedResources.Proofs.Write.Visits

/-!
# Hidden entities cannot be named by a write

Whatever stored entity the commands of a plan refer to exists and passes what the gate of its
resource requires. A look-up that finds only rows which do not pass ends the whole write.
-/
namespace NestedResources

/-! ## References of a plan -/

/-- Whether an identity is that of a stored row that the caller may see. -/
def Registry.Visible (g : Registry) (ctx : Context) (t : Tables) (resource : String) (i : Identity) :
    Prop :=
  ∃ r record required, g.schema.resource? resource = some r ∧ t.row? resource i = some record ∧
    g.required ctx r = .ok required ∧ t.passes g.schema r required record = true

/-- Whether a reference to a stored entity is to one that the caller may see. -/
def Registry.MayName (g : Registry) (ctx : Context) (t : Tables) (resource : String) : EntityRef → Prop
  | .existing i => g.Visible ctx t resource i
  | .pending _ => True

/-- Whether all references of a command are to entities that the caller may see: its target, or the
parent and the child of its relationship. -/
def Command.NamesVisible (g : Registry) (ctx : Context) (t : Tables) : Command → Prop
  | .create _ _ _ => True
  | .update resource target _ | .delete resource target => g.MayName ctx t resource target
  | .link c | .unlink c => g.MayName ctx t c.resource c.parent ∧
      ∃ r rel, g.schema.resource? c.resource = some r ∧ r.relationship? c.relationship = some rel ∧
        g.MayName ctx t rel.target c.child

namespace WalkSite

variable {site : WalkSite} {commands : List Command} {log : List Consultation}

/-- In tables that are in order, an entity that is shown is found by its identity. -/
theorem Shows.visible (hfiled : site.tables.Filed site.registry.schema) {r : Resource}
    (hr : site.registry.schema.resource? r.name = some r) {i : Identity} {record : Record}
    (h : site.Shows r i record) : site.registry.Visible site.ctx site.tables r.name i := by
  induction h with
  | row hmem hrequired hpasses hidentity =>
    obtain ⟨j, hj, hrow⟩ := hfiled.row?_of_mem hr hmem
    rw [hj, Option.getD_some] at hidentity
    subst hidentity
    exact ⟨r, _, _, hr, hrow, hrequired, hpasses⟩
  | written values _ ih => exact ih

theorem Knows.mayName (hfiled : site.tables.Filed site.registry.schema) {r : Resource}
    (hr : site.registry.schema.resource? r.name = some r) {stored : Option Record} {ref : EntityRef}
    (h : site.Knows commands r stored ref) :
    site.registry.MayName site.ctx site.tables r.name ref := by
  cases ref with
  | pending slot => trivial
  | existing i =>
    obtain ⟨record, -, hshows⟩ := h
    exact hshows.visible hfiled hr

theorem Stands.namesVisible (hfiled : site.tables.Filed site.registry.schema) {p : Parent}
    {target : Resource} {child : Known} (hp : site.Stands commands p)
    (htarget : site.registry.schema.target? p.relationship = some target)
    (hchild : site.Knows commands target child.existing? child.reference) :
    (Command.link (linkChange p child.reference)).NamesVisible site.registry site.ctx site.tables := by
  have hname : target.name = p.relationship.target := Schema.name_of_resource? htarget
  have hresource : site.registry.schema.resource? target.name = some target := hname ▸ htarget
  refine ⟨hp.knows.mayName hfiled hp.resource, p.resource, p.relationship, hp.resource,
    hp.relationship, ?_⟩
  rw [← hname]
  exact hchild.mayName hfiled hresource

theorem Plans.namesVisible (hfiled : site.tables.Filed site.registry.schema) {c : Command}
    {qs : List Question} (h : site.Plans log commands c qs) :
    c.NamesVisible site.registry site.ctx site.tables := by
  cases h with
  | create => trivial
  | update hr hold hknows hfields => exact hknows.mayName hfiled hr
  | delete hr hknows => exact hknows.mayName hfiled hr
  | link hp htarget hchild hdisplaced => exact hp.namesVisible hfiled htarget hchild
  | unlink hp htarget hchild => exact hp.namesVisible hfiled htarget hchild

theorem Authorised.namesVisible (hfiled : site.tables.Filed site.registry.schema)
    (h : site.Authorised log commands) :
    ∀ c ∈ commands, c.NamesVisible site.registry site.ctx site.tables := by
  induction h with
  | none => exact fun c hc => by cases hc
  | asked _ _ ih => exact ih
  | planned _ hplans _ ih =>
    intro c hc
    rcases List.mem_append.1 hc with hc | hc
    · exact ih c hc
    · exact List.mem_singleton.1 hc ▸ hplans.namesVisible hfiled

end WalkSite

/-! ## Look-ups that find hidden rows only -/

/-- Whether the run of a walk from a state comes to a part of it, in the state `here`. -/
inductive Walking.Reaches {β : Type} (part : Walking β) (here : Walk) :
    {α : Type} → Walking α → Walk → Prop
  | itself : Reaches part here part here
  | inside {α γ : Type} {m : Walking α} {f : α → Walking γ} {w : Walk} (h : Reaches part here m w) :
      Reaches part here (m >>= f) w
  | after {α γ : Type} {m : Walking α} {f : α → Walking γ} {w between : Walk} {a : α}
      (hm : m.run.run w = (.ok a, between)) (h : Reaches part here (f a) between) :
      Reaches part here (m >>= f) w

/-- An error in a part of a walk that is come to ends the walk. -/
theorem Walking.Reaches.error {α β : Type} {part : Walking β} {here : Walk} {m : Walking α} {w : Walk}
    (h : Reaches part here m w) {e : Error} {after : Walk}
    (he : part.run.run here = (.error e, after)) : m.run.run w = (.error e, after) := by
  induction h with
  | itself => exact he
  | inside _ ih => exact Walking.bind_of_error ih
  | after hm _ ih => exact (Walking.bind_of_ok hm).trans ih

namespace WalkSite

open Walking

/-- Whether the rows with an identity are there, but none of them passes what the gate requires. -/
structure Hides (site : WalkSite) (r : Resource) (i : Identity) : Prop where
  resource : site.registry.schema.resource? r.name = some r
  exists_row : ∃ record ∈ site.tables.rowsOf r.name,
    (Predicate.identity r i).holds site.tables site.registry.schema r record = true
  hidden : ∃ p, site.registry.required site.ctx r = .ok (some p) ∧
    ∀ record ∈ site.tables.rowsOf r.name,
      (Predicate.identity r i).holds site.tables site.registry.schema r record = true →
        p.holds site.tables site.registry.schema r record = false

/-- A hidden entity that the walk has not met is not found. -/
theorem lookup_hidden {site : WalkSite} {r : Resource} {i : Identity} {w : Walk}
    (h : site.Hides r i) (hnew : firstOf? (r.name, i.key) w.known = none) :
    (site.lookup r i).run.run w = (.error (.notFound r.name i.key), w) := by
  obtain ⟨hr, ⟨record, hmem, hidentity⟩, p, hrequired, hhidden⟩ := h
  obtain ⟨rows, hrows, hvisible, -⟩ := site.tables.fetch_first hr
    (Predicate.conjoin (some (.identity r i)) (some p))
  have hnone : rows = [] := by
    cases rows with
    | nil => rfl
    | cons row rest =>
      obtain ⟨hrow, hpasses⟩ := hvisible row List.mem_cons_self
      rw [Predicate.passes_conjoin, Bool.and_eq_true] at hpasses
      have hshown : p.holds site.tables site.registry.schema r row.record = true := hpasses.2
      rw [hhidden row.record hrow hpasses.1] at hshown
      cases hshown
  subst hnone
  have hcount := site.tables.count_eq hr (some (.identity r i))
  have hpositive : 0 < (site.tables.rowsOf r.name).countP
      (site.tables.passes site.registry.schema r (some (.identity r i))) :=
    List.countP_pos_iff.2 ⟨record, hmem, hidentity⟩
  unfold lookup
  rw [bind_of_ok (get_run w)]
  simp only [hnew]
  rw [bind_of_ok (by rw [liftM_run, hrequired])]
  rw [bind_of_ok (by rw [liftM_run, hrows])]
  simp only [Option.isSome_some, if_true]
  rw [bind_of_ok (by rw [liftM_run, hcount]), if_pos hpositive]
  rfl

end WalkSite

namespace WriteOp

/-- A plan that gets to its commit names visible entities only, and a look-up that finds hidden rows
only ends the write: the entity is not found, and nothing is committed. -/
theorem hidden_not_named (op : WriteOp) (g : Registry) (ctx : Context) (d : Desk)
    (hfiled : d.store.tables.Filed g.schema) :
    (∀ roots w, (op.walk ⟨g, ctx, d.store.tables⟩).run.run {} = (.ok roots, w) →
      ∀ c ∈ w.plan.commands, c.NamesVisible g ctx d.store.tables) ∧
    ∀ r i here, Walking.Reaches (WalkSite.lookup ⟨g, ctx, d.store.tables⟩ r i) here
        (op.walk ⟨g, ctx, d.store.tables⟩) {} →
      firstOf? (r.name, i.key) here.known = none → WalkSite.Hides ⟨g, ctx, d.store.tables⟩ r i →
        ∃ after : Desk, (Serving.commit g ctx op.walk).on d = (.error (.notFound r.name i.key), after) ∧
          after.store = d.store := by
  refine ⟨fun roots w h => (WriteOp.sound h).authorised.namesVisible hfiled,
    fun r i here hreaches hnew hhides => ?_⟩
  have hrun := hreaches.error (WalkSite.lookup_hidden hhides hnew)
  rw [Serving.commit_on hrun]
  exact ⟨_, rfl, rfl⟩

end WriteOp

namespace Music

/-- Gives the third employee a title. -/
def promote : WriteOp := .update "employees" ⟨[.int 3]⟩ (.obj [("title", .str "Lead")]) .patch

/-- The second employee may name the third one, but not delete the first one. -/
theorem hidden_not_named_staff :
    (∃ roots w, (promote.walk ⟨staff, asUser 2, staffTables employeeRows⟩).run.run {} = (.ok roots, w) ∧
      w.plan.commands.length = 1 ∧
      ∀ c ∈ w.plan.commands, c.NamesVisible staff (asUser 2) (staffTables employeeRows)) ∧
    ∃ after : Desk, (Serving.commit staff (asUser 2) (WriteOp.delete "employees" ⟨[.int 1]⟩).walk).on
        ⟨⟨staffTables employeeRows, 0⟩, []⟩ = (.error (.notFound "employees" "1"), after) ∧
      after.store = ⟨staffTables employeeRows, 0⟩ := by
  have hfiled : (staffTables employeeRows).Filed staff.schema := filed_staffTables (by decide +kernel)
  have hemployees : staff.schema.resource? "employees" = some employees := by decide +kernel
  constructor
  · have hok : ((promote.walk ⟨staff, asUser 2, staffTables employeeRows⟩).run.run {}).1.isOk := by
      decide +kernel
    obtain ⟨roots, hroots⟩ := Except.exists_of_isOk hok
    exact ⟨roots, _, Prod.ext hroots rfl, by decide +kernel,
      (WriteOp.hidden_not_named promote staff (asUser 2) ⟨⟨staffTables employeeRows, 0⟩, []⟩
        hfiled).1 roots _ (Prod.ext hroots rfl)⟩
  · have hhides : WalkSite.Hides ⟨staff, asUser 2, staffTables employeeRows⟩ employees ⟨[.int 1]⟩ :=
      ⟨hemployees, by decide +kernel, ownTeam, required_staff, by decide +kernel⟩
    refine (WriteOp.hidden_not_named (.delete "employees" ⟨[.int 1]⟩) staff (asUser 2)
      ⟨⟨staffTables employeeRows, 0⟩, []⟩ hfiled).2 employees ⟨[.int 1]⟩ {} ?_ rfl hhides
    exact .after (by rw [Walking.liftM_run, Schema.require_eq_ok.2 hemployees]) (.inside .itself)

end Music

end NestedResources
