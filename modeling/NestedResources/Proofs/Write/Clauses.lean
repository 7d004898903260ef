import NestedResources.Proofs.Store.Membership
import NestedResources.Proofs.Write.Scalars

/-!
# What documents say of relationships

A document that is posted to a relationship of an entity asks for a membership of its own entity. Below
that entity it may say more: of relationships of its entity, of those of the entities it names or brings
along, and so on. The membership rests on columns of two rows, or on a link between them. A clause spares it
if whatever the clause asks for leaves these as they are (`Posting.Spares`).
-/
namespace NestedResources

/-! ## Clauses -/

/-- The entity that an object of a document is for, as far as the document tells. -/
inductive Naming where
  /-- The entity of the whole document. -/
  | top
  | named (key : String)
  | new
deriving DecidableEq

/-- What an object below the top tells of its entity. -/
def Resource.namingOf (r : Resource) (members : List (String × Json)) : Naming :=
  match r.identityIn? members with
  | some i => .named i.key
  | none => .new

/-- What an object of a document says of one of its relationships. -/
structure Clause where
  resource : Resource
  naming : Naming
  relationship : Relationship
  target : Resource
  raw : Json

/-- The objects that are given for a relationship. -/
def Json.objects : Json → List (List (String × Json))
  | .obj members => [members]
  | .arr items => items.filterMap Json.object?
  | _ => []

/-- Whether an object detaches its entity. -/
def DocumentOp.Removes (members : List (String × Json)) : Prop :=
  (Entries.get? key members).bind Json.string? = some "remove"

instance (members : List (String × Json)) : Decidable (DocumentOp.Removes members) :=
  inferInstanceAs (Decidable (_ = _))

namespace Clause

/-- Whether entities may be detached from the relationship. A foreign key of the entity itself is overwritten
by its new member, and nobody is detached from it. -/
def Detaches (c : Clause) : Prop :=
  c.raw.isNull = true ∨ (∃ o ∈ c.raw.objects, DocumentOp.Removes o) ∨
    (c.relationship.isMany = false ∧ c.relationship.join.isForeignKey = false)

instance (c : Clause) : Decidable c.Detaches := inferInstanceAs (Decidable (_ ∨ _ ∨ _))

end Clause

mutual

/-- What an object says of its relationships, and what is said below it. -/
def clauses (s : Schema) (r : Resource) (naming : Naming) : List (String × Json) → List Clause
  | [] => []
  | (key, raw) :: rest =>
    (match (r.walked? key).bind fun rel => (s.target? rel).map (rel, ·) with
      | some (rel, target) =>
        if raw.isString then [] else ⟨r, naming, rel, target, raw⟩ :: clausesBelow s target raw
      | none => []) ++ clauses s r naming rest

/-- What is said in the objects that are given for a relationship. -/
def clausesBelow (s : Schema) (target : Resource) : Json → List Clause
  | .obj members => clauses s target (target.namingOf members) members
  | .arr items => clausesOfItems s target items
  | _ => []

def clausesOfItems (s : Schema) (target : Resource) : List Json → List Clause
  | [] => []
  | item :: rest => clausesBelow s target item ++ clausesOfItems s target rest

end

section
variable {s : Schema} {r target : Resource} {naming : Naming} {key : String} {raw : Json} {rel : Relationship}
  {rest : List (String × Json)} {c : Clause}

theorem mem_clauses_of_mem_rest (h : c ∈ clauses s r naming rest) (m : String × Json) :
    c ∈ clauses s r naming (m :: rest) := by
  rw [clauses]
  exact List.mem_append_right _ h

/-- What is said of a relationship, and below it. -/
theorem mem_clauses_of_walked (hrel : r.walked? key = some rel) (htarget : s.target? rel = some target)
    (hraw : ¬ raw.isString = true)
    (h : c = ⟨r, naming, rel, target, raw⟩ ∨ c ∈ clausesBelow s target raw) :
    c ∈ clauses s r naming ((key, raw) :: rest) := by
  rw [clauses, hrel, Option.bind_some, htarget, Option.map_some]
  dsimp only
  rw [if_neg hraw]
  exact List.mem_append_left _ (List.mem_cons.2 h)

end

/-! ## What a membership rests on -/

namespace Join

/-- The columns of the entity that it is told by who its members are. -/
def near : Join → List String
  | .foreignKey own _ | .reverse own _ => own
  | .association _ _ _ => []

/-- The columns of the members that are compared with those. -/
def far : Join → List String
  | .foreignKey _ referenced => referenced
  | .reverse _ held => held
  | .association _ _ _ => []

def table? : Join → Option String
  | .association table _ _ => some table
  | _ => none

end Join

/-- A document is posted to a relationship of an entity. -/
structure Posting where
  owner : Resource
  ownerKey : String
  relationship : Relationship
  target : Resource
  /-- The key that the document names its entity by. -/
  key? : Option String

namespace Posting

variable (m : Posting)

def ownerColumns : List String := m.owner.identityColumns ++ m.relationship.join.near

def memberColumns : List String := m.target.identityColumns ++ m.relationship.join.far

/-- The columns of the row of an entity that the membership rests on. -/
def columns (resource : String) : Naming → List String
  | .top => m.memberColumns ++
      if m.target.name = m.owner.name ∧ m.key? = some m.ownerKey then m.ownerColumns else []
  | .named key =>
      (if resource = m.owner.name ∧ key = m.ownerKey then m.ownerColumns else []) ++
        if resource = m.target.name ∧ m.key? = some key then m.memberColumns else []
  | .new => []

/-- The columns that the membership rests on in some row of a resource. -/
def anyColumns (resource : String) : List String :=
  (if resource = m.owner.name then m.ownerColumns else []) ++
    if resource = m.target.name then m.memberColumns else []

/-- Whatever a clause asks for leaves what the membership rests on as it is. -/
structure Spares (c : Clause) : Prop where
  /-- A foreign key of the entity that is spoken of. -/
  owned : c.relationship.join.isForeignKey = true →
    ∀ column ∈ c.relationship.join.near, column ∉ m.columns c.resource.name c.naming
  /-- A foreign key of the entities that are attached or detached. -/
  held : ∀ o ∈ c.raw.objects, ∀ column ∈ c.relationship.join.held,
    column ∉ m.columns c.target.name (c.target.namingOf o)
  /-- A foreign key of whoever is attached so far. -/
  displaced : c.relationship.isMany = false → ∀ column ∈ c.relationship.join.held,
    column ∉ m.anyColumns c.target.name
  links : c.Detaches → ∀ table ∈ c.relationship.join.table?, table ∉ m.relationship.join.table?
  detaches : c.Detaches → c.relationship.cascade = .detach
  fields : ∀ o ∈ c.raw.objects, ∀ e ∈ o, ∀ f ∈ c.target.field? e.1, c.target.isIdentity f.name = false →
    f.column ∉ m.columns c.target.name (c.target.namingOf o)

instance (c : Clause) : Decidable (m.Spares c) :=
  decidable_of_iff
    ((c.relationship.join.isForeignKey = true →
        ∀ column ∈ c.relationship.join.near, column ∉ m.columns c.resource.name c.naming) ∧
      (∀ o ∈ c.raw.objects, ∀ column ∈ c.relationship.join.held,
        column ∉ m.columns c.target.name (c.target.namingOf o)) ∧
      (c.relationship.isMany = false → ∀ column ∈ c.relationship.join.held,
        column ∉ m.anyColumns c.target.name) ∧
      (c.Detaches → ∀ table ∈ c.relationship.join.table?, table ∉ m.relationship.join.table?) ∧
      (c.Detaches → c.relationship.cascade = .detach) ∧
      ∀ o ∈ c.raw.objects, ∀ e ∈ o, ∀ f ∈ c.target.field? e.1, c.target.isIdentity f.name = false →
        f.column ∉ m.columns c.target.name (c.target.namingOf o))
    ⟨fun ⟨owned, held, displaced, links, detaches, fields⟩ =>
        ⟨owned, held, displaced, links, detaches, fields⟩,
      fun h => ⟨h.owned, h.held, h.displaced, h.links, h.detaches, h.fields⟩⟩

end Posting

end NestedResources
