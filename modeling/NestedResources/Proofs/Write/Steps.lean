import Mathlib.Logic.Relation
import NestedResources.Proofs.Store.Fetched
import NestedResources.Proofs.Write.Lookup

/-!
# Steps of a walk

A walk does five things: it notes issues, learns about entities, has questions answered by gates,
remembers memberships, and plans commands. A command is planned right after its own questions were
answered, and it refers only to entities that the plan creates or that the caller may see. The
invariant of a walk follows from what one step may do (`WalkSite.Step.sound`).
-/
namespace NestedResources

/-! ## Questions -/

/-- A change with the gate that it is put to. -/
structure Question where
  gate : GateRef × Gate
  change : Change

namespace Question

def allowed (q : Question) (ctx : Context) : Bool := q.gate.2.permits q.change ctx

def answer (q : Question) (ctx : Context) : Consultation := ⟨q.gate.1, q.change, q.allowed ctx⟩

end Question

namespace Registry

/-- What both ends of a relationship are asked about a change of a membership. -/
def relationshipQuestions (g : Registry) (p : Parent) (target : Resource) (child : Option Record)
    (action : Action) (value : Option Json) : List Question :=
  ⟨g.relationshipGateWithRef p.resource.name p.relationship.name,
    { resource := p.resource, subject := .relationship p.relationship.name, action, value,
      existing := p.existing, parent := none }⟩ ::
  match p.relationship.inverse.bind target.relationship? with
  | none => []
  | some inverse => [⟨g.relationshipGateWithRef target.name inverse.name,
      { resource := target, subject := .relationship inverse.name, action, value := none,
        existing := child, parent := some p.forChange }⟩]

/-- The question about the entity that an object is for. -/
def entityQuestion (g : Registry) (s : Scope) (members : List (String × Json)) : Question :=
  ⟨g.gateWithRef s.resource.name, s.change .entity (.obj members)⟩

theorem mem_relationshipQuestions_of_inverse {g : Registry} {p : Parent} {target : Resource}
    {child : Option Record} {action : Action} {value : Option Json} {inverse : Relationship}
    (h : p.relationship.inverse.bind target.relationship? = some inverse) :
    (⟨g.relationshipGateWithRef target.name inverse.name,
      { resource := target, subject := .relationship inverse.name, action, value := none,
        existing := child, parent := some p.forChange }⟩ : Question) ∈
      g.relationshipQuestions p target child action value := by
  simp [relationshipQuestions, h]

/-- What is asked about the fields of a document, for the values that it writes. -/
inductive Assigns (g : Registry) (s : Scope) : Record → List Question → Prop
  | none : Assigns g s .empty []
  | field {values : Record} {qs : List Question} {f : Field} {v : Json} (h : Assigns g s values qs)
      (hf : s.resource.field? f.name = some f) :
      Assigns g s (values.insert f.column v)
        (qs ++ [⟨g.gateWithRef s.resource.name, s.change (.field f.name) v⟩])

/-- Every value that is written was asked about. -/
theorem Assigns.exists_question {g : Registry} {s : Scope} {values : Record} {qs : List Question}
    (h : g.Assigns s values qs) {column : String} {v : Json} (hv : values.get? column = some v) :
    ∃ f, s.resource.field? f.name = some f ∧ f.column = column ∧
      ⟨g.gateWithRef s.resource.name, s.change (.field f.name) v⟩ ∈ qs := by
  induction h with
  | none => cases hv
  | @field values qs f value _ hf ih =>
    by_cases hcolumn : column = f.column
    · subst hcolumn
      rw [Dict.get?_insert_self] at hv
      cases hv
      exact ⟨f, hf, rfl, List.mem_append_right qs List.mem_cons_self⟩
    · rw [Dict.get?_insert_of_ne _ hcolumn] at hv
      obtain ⟨other, hother, hcolumn, hmem⟩ := ih hv
      exact ⟨other, hother, hcolumn, List.mem_append_left _ hmem⟩

/-- Nothing is asked about fields if nothing is written. -/
theorem Assigns.eq_nil {g : Registry} {s : Scope} {values : Record} {qs : List Question}
    (h : g.Assigns s values qs) (hvalues : values.isEmpty = true) : qs = [] := by
  cases h with
  | none => rfl
  | @field values qs f v _ _ =>
    have hmem := Dict.get?_eq_some_iff.1 (values.get?_insert_self f.column v)
    rw [List.isEmpty_iff.1 hvalues] at hmem
    cases hmem

end Registry

/-! ## Entities that may be referred to -/

namespace WalkSite

variable (site : WalkSite)

/-- The row of an entity that the caller may see, with the writes planned so far. -/
inductive Shows (r : Resource) (i : Identity) : Record → Prop
  | row {record : Record} {required : Option Predicate} (hrow : record ∈ site.tables.rowsOf r.name)
      (hrequired : site.registry.required site.ctx r = .ok required)
      (hpasses : site.tables.passes site.registry.schema r required record = true)
      (hidentity : (r.identityOf? record).getD i = i) : Shows r i record
  | written {record : Record} (values : Record) (h : Shows r i record) : Shows r i (record.union values)

/-- What a reference stands for: a row that may be seen, with what is known of it, or an entity that
the commands create. -/
def Knows (commands : List Command) (r : Resource) (stored : Option Record) : EntityRef → Prop
  | .existing i => ∃ record, stored = some record ∧ site.Shows r i record
  | .pending slot => stored = none ∧ ∃ values, .create slot r.name values ∈ commands

/-- A parent of the schema that may be referred to. -/
structure Stands (commands : List Command) (p : Parent) : Prop where
  resource : site.registry.schema.resource? p.resource.name = some p.resource
  relationship : p.resource.relationship? p.relationship.name = some p.relationship
  knows : site.Knows commands p.resource p.existing p.reference

/-- Whether both ends have allowed a membership to end, as far as keys tell memberships apart. -/
def Removed (log : List Consultation) (commands : List Command) (key : LinkKey) : Prop :=
  ∃ (p : Parent) (target : Resource) (child : Known) (value : Option Json),
    p.linkKey child.reference = key ∧ site.Stands commands p ∧
    site.registry.schema.target? p.relationship = some target ∧
    site.Knows commands target child.existing? child.reference ∧
    ∀ q ∈ site.registry.relationshipQuestions p target child.existing? .remove value,
      q.allowed site.ctx = true ∧ q.answer site.ctx ∈ log

/-- The stored members of a relationship of a stored entity that the caller may see. -/
def Member (r : Resource) (rel : Relationship) (parent : Identity) (target : Resource) (i : Identity) :
    Prop :=
  ∃ record required, record ∈ site.tables.rowsOf target.name ∧
    site.registry.required site.ctx target = .ok required ∧
    site.tables.passes site.registry.schema target required record = true ∧
    (Predicate.memberOf r.name parent rel.name).holds site.tables site.registry.schema target record
      = true ∧
    target.identityOf? record = some i

/-! ## Commands with what is asked about them -/

/-- A command that may be planned, with its own questions. A member that a to-one relationship gives
up for another has been asked about before. -/
inductive Plans (log : List Consultation) (commands : List Command) : Command → List Question → Prop
  | create {s : Scope} {values : Record} {fields : List Question}
      {members : List (String × Json)} (hr : site.registry.schema.resource? s.resource.name = some s.resource)
      (hnew : s.known = none) (hfields : site.registry.Assigns s values fields) :
      Plans log commands (.create (Plan.mk commands).pending s.resource.name values)
        (fields ++ [site.registry.entityQuestion s members])
  | update {s : Scope} {k : Known} {values : Record} {fields : List Question}
      {members : List (String × Json)} (hr : site.registry.schema.resource? s.resource.name = some s.resource)
      (hold : s.known = some k) (hknows : site.Knows commands s.resource k.existing? k.reference)
      (hfields : site.registry.Assigns s values fields) :
      Plans log commands (.update s.resource.name k.reference values)
        (fields ++ [site.registry.entityQuestion s members])
  | delete {r : Resource} {k : Known} (hr : site.registry.schema.resource? r.name = some r)
      (hknows : site.Knows commands r k.existing? k.reference) :
      Plans log commands (.delete r.name k.reference) [⟨site.registry.gateWithRef r.name,
        { resource := r, subject := .entity, action := .delete, value := none,
          existing := k.existing?, parent := none }⟩]
  | link {p : Parent} {target : Resource} {child : Known} {value : Json}
      (hp : site.Stands commands p) (htarget : site.registry.schema.target? p.relationship = some target)
      (hchild : site.Knows commands target child.existing? child.reference)
      (hdisplaced : p.relationship.isMany = false → ∀ parent, p.reference = .existing parent →
        ∀ i, site.Member p.resource p.relationship parent target i → i.key ≠ child.reference.key →
          site.Removed log commands (p.linkKey (.existing i))) :
      Plans log commands (.link (linkChange p child.reference))
        (site.registry.relationshipQuestions p target child.existing? .add (some value))
  | unlink {p : Parent} {target : Resource} {child : Known} {value : Option Json}
      (hp : site.Stands commands p) (htarget : site.registry.schema.target? p.relationship = some target)
      (hchild : site.Knows commands target child.existing? child.reference) :
      Plans log commands (.unlink (linkChange p child.reference))
        (site.registry.relationshipQuestions p target child.existing? .remove value)

/-- A log in which every command has its own answers, all of them allowing, at the time when it was
planned. Other answers in between allow as well. -/
inductive Authorised : List Consultation → List Command → Prop
  | none : Authorised [] []
  | asked {log : List Consultation} {commands : List Command} {qs : List Question}
      (h : Authorised log commands) (hallowed : ∀ q ∈ qs, q.allowed site.ctx = true) :
      Authorised (log ++ qs.map (·.answer site.ctx)) commands
  | planned {log : List Consultation} {commands : List Command} {c : Command} {qs : List Question}
      (h : Authorised log commands) (hplans : site.Plans log commands c qs)
      (hallowed : ∀ q ∈ qs, q.allowed site.ctx = true) :
      Authorised (log ++ qs.map (·.answer site.ctx)) (commands ++ [c])

/-! ## Steps -/

/-- What a walk does in one step. -/
inductive Step (w : Walk) : Walk → Prop
  | issues (found : List Issue) : Step w { w with issues := w.issues ++ found }
  | learn {r : Resource} {key : String} {k : Known}
      (hr : site.registry.schema.resource? r.name = some r)
      (hk : site.Knows w.plan.commands r k.existing? k.reference) :
      Step w { w with known := ((r.name, key), k) :: w.known }
  | ask {qs : List Question} (hallowed : ∀ q ∈ qs, q.allowed site.ctx = true) :
      Step w { w with consulted := w.consulted ++ qs.map (·.answer site.ctx) }
  | member {key : LinkKey} {value : Bool}
      (h : value = false → site.Removed w.consulted w.plan.commands key) :
      Step w { w with memberships := (key, value) :: w.memberships }
  | plan {c : Command} {qs : List Question} (h : site.Plans w.consulted w.plan.commands c qs)
      (hallowed : ∀ q ∈ qs, q.allowed site.ctx = true) :
      Step w { w with
        consulted := w.consulted ++ qs.map (·.answer site.ctx)
        plan := w.plan.push c }

abbrev Steps : Walk → Walk → Prop := Relation.ReflTransGen site.Step

/-- What holds of the state of a walk all along. -/
structure Sound (w : Walk) : Prop where
  known : ∀ e ∈ w.known, ∀ r, site.registry.schema.resource? e.1.1 = some r →
    site.Knows w.plan.commands r e.2.existing? e.2.reference
  memberships : ∀ e ∈ w.memberships, e.2 = false → site.Removed w.consulted w.plan.commands e.1
  authorised : site.Authorised w.consulted w.plan.commands

section

variable {site : WalkSite} {log more : List Consultation} {commands others : List Command}

theorem Knows.mono (h : ∀ c ∈ commands, c ∈ others) {r : Resource} {stored : Option Record}
    {ref : EntityRef} (hk : site.Knows commands r stored ref) : site.Knows others r stored ref := by
  cases ref with
  | existing i => exact hk
  | pending slot =>
    obtain ⟨hnone, values, hmem⟩ := hk
    exact ⟨hnone, values, h _ hmem⟩

theorem Stands.mono (h : ∀ c ∈ commands, c ∈ others) {p : Parent} (hp : site.Stands commands p) :
    site.Stands others p :=
  { hp with knows := hp.knows.mono h }

theorem Removed.mono (h : ∀ c ∈ commands, c ∈ others) (hlog : ∀ x ∈ log, x ∈ more) {key : LinkKey}
    (hr : site.Removed log commands key) : site.Removed more others key := by
  obtain ⟨p, target, child, value, hkey, hp, htarget, hchild, hasked⟩ := hr
  exact ⟨p, target, child, value, hkey, hp.mono h, htarget, hchild.mono h,
    fun q hq => (hasked q hq).imp id (hlog _)⟩

variable {w after : Walk}

/-- Commands and answers stay. -/
theorem Step.grows (h : site.Step w after) :
    (∀ c ∈ w.plan.commands, c ∈ after.plan.commands) ∧ ∀ x ∈ w.consulted, x ∈ after.consulted := by
  cases h with
  | issues => exact ⟨fun _ h => h, fun _ h => h⟩
  | learn => exact ⟨fun _ h => h, fun _ h => h⟩
  | ask => exact ⟨fun _ h => h, fun _ h => List.mem_append_left _ h⟩
  | member => exact ⟨fun _ h => h, fun _ h => h⟩
  | plan => exact ⟨fun _ h => List.mem_append_left _ h, fun _ h => List.mem_append_left _ h⟩

theorem Steps.grows (h : site.Steps w after) :
    (∀ c ∈ w.plan.commands, c ∈ after.plan.commands) ∧ ∀ x ∈ w.consulted, x ∈ after.consulted := by
  induction h with
  | refl => exact ⟨fun _ h => h, fun _ h => h⟩
  | tail _ hstep ih =>
    exact ⟨fun c hc => hstep.grows.1 c (ih.1 c hc), fun x hx => hstep.grows.2 x (ih.2 x hx)⟩

/-- Commands and issues are added at the end. -/
theorem Step.extends (h : site.Step w after) : w.plan.commands <+: after.plan.commands ∧
    w.issues <+: after.issues := by
  cases h with
  | issues => exact ⟨List.prefix_rfl, List.prefix_append _ _⟩
  | learn => exact ⟨List.prefix_rfl, List.prefix_rfl⟩
  | ask => exact ⟨List.prefix_rfl, List.prefix_rfl⟩
  | member => exact ⟨List.prefix_rfl, List.prefix_rfl⟩
  | plan => exact ⟨List.prefix_append _ _, List.prefix_rfl⟩

theorem Steps.extends (h : site.Steps w after) : w.plan.commands <+: after.plan.commands ∧
    w.issues <+: after.issues := by
  induction h with
  | refl => exact ⟨List.prefix_rfl, List.prefix_rfl⟩
  | tail _ hstep ih => exact ⟨ih.1.trans hstep.extends.1, ih.2.trans hstep.extends.2⟩

/-- A step keeps a walk sound. -/
theorem Step.sound (h : site.Step w after) (hw : site.Sound w) : site.Sound after := by
  have hknown : ∀ e ∈ w.known, ∀ r, site.registry.schema.resource? e.1.1 = some r →
      site.Knows after.plan.commands r e.2.existing? e.2.reference :=
    fun e he r hr => (hw.known e he r hr).mono h.grows.1
  have hmemberships : ∀ e ∈ w.memberships, e.2 = false →
      site.Removed after.consulted after.plan.commands e.1 :=
    fun e he hfalse => (hw.memberships e he hfalse).mono h.grows.1 h.grows.2
  cases h with
  | issues found => exact ⟨hw.known, hw.memberships, hw.authorised⟩
  | @learn r key k hr hk =>
    refine ⟨fun e he r' hr' => ?_, hw.memberships, hw.authorised⟩
    rcases List.mem_cons.1 he with rfl | he
    · cases hr.symm.trans hr'
      exact hk
    · exact hw.known e he r' hr'
  | ask hallowed => exact ⟨hknown, hmemberships, hw.authorised.asked hallowed⟩
  | member hremoved =>
    refine ⟨hw.known, fun e he hfalse => ?_, hw.authorised⟩
    rcases List.mem_cons.1 he with rfl | he
    · exact hremoved hfalse
    · exact hw.memberships e he hfalse
  | plan hplans hallowed => exact ⟨hknown, hmemberships, hw.authorised.planned hplans hallowed⟩

theorem Steps.sound (h : site.Steps w after) (hw : site.Sound w) : site.Sound after := by
  induction h with
  | refl => exact hw
  | tail _ hstep ih => exact hstep.sound ih

theorem sound_empty : site.Sound {} := ⟨fun _ h => (by cases h), fun _ h => (by cases h), .none⟩

end

end WalkSite

end NestedResources
