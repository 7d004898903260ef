import NestedResources.Store.Fetch
import NestedResources.Store.Plan

/-!
# Committing plans

A plan is applied command by command to a value of the store, so a plan that fails changes nothing.
Integer identities that the store assigns follow the greatest one in the table; identity texts come
from a supply. Deleting an entity detaches or deletes the members of its relationships and clears
whatever refers to it. At the end every row that was written must have its required columns.
-/
namespace NestedResources

namespace IdentityText

/-- Digits and lower-case letters without those that look alike. -/
def alphabet : List Char := "23456789abcdefghjkmnpqrstuvwxyz".toList

def length : Nat := 16

/-- `places` digits of a numeral over the alphabet, the last one first. -/
def digits : Nat → Nat → List Char
  | 0, _ => []
  | places + 1, n =>
    alphabet.getD (n % alphabet.length) '2' :: digits places (n / alphabet.length)

/-- The text that the supply holds at a position. -/
def nth (n : Nat) : String := String.ofList (digits length n).reverse

end IdentityText

/-- Tables with the number of identity texts taken from the supply so far. -/
structure Store where
  tables : Tables
  issued : Nat := 0

instance : Inhabited Store := ⟨⟨.empty, 0⟩⟩

/-- A plan that is being applied. -/
structure Progress where
  store : Store
  created : List Identity := []
  writes : Nat := 0
  /-- The rows written so far, by resource and key. -/
  touched : List (String × String) := []

namespace Progress

def tables (p : Progress) : Tables := p.store.tables

def withTables (p : Progress) (t : Tables) : Progress := { p with store := { p.store with tables := t } }

/-- Files a row and counts it as written. -/
def writeRow (p : Progress) (resource key : String) (record : Record) : Progress :=
  { p.withTables (p.tables.putRow resource key record) with
    writes := p.writes + 1
    touched := p.touched ++ [(resource, key)] }

/-- The entity that a reference stands for. -/
def resolve (p : Progress) : EntityRef → Except Error Identity
  | .existing identity => .ok identity
  | .pending slot => match p.created[slot]? with
    | some identity => .ok identity
    | none => .error (.store (.pendingUnknown slot))

/-- Writes values into the columns of a row, if the row exists and any of them differs. -/
def assign (p : Progress) (resource : String) (i : Identity) (columns : List String)
    (values : List Json) : Progress :=
  match p.tables.row? resource i with
  | none => p
  | some record =>
    let (next, changed) := record.assign (columns.zip values)
    if changed then p.writeRow resource i.key next else p

def clear (p : Progress) (resource : String) (i : Identity) (columns : List String) : Progress :=
  p.assign resource i columns (columns.map fun _ => .null)

/-- Drops the links whose column holds a key, and counts them. -/
def dropLinks (p : Progress) (name column key : String) : Progress :=
  let before := (p.tables.linksOf name).links.length
  let t := p.tables.filterLinks name fun link => link.get? column ≠ some key
  { p.withTables t with writes := p.writes + (before - (t.linksOf name).links.length) }

/-! ## Deleting -/

/-- A deletion with the entities it has reached, by resource and key. -/
structure Deletion where
  progress : Progress
  reached : List (String × String) := []

namespace Deletion

def step (d : Deletion) (f : Progress → Progress) : Deletion := { d with progress := f d.progress }

/-- The entities that are members of a relationship of a row. -/
def memberIdentities (d : Deletion) (schema : Schema) (r target : Resource) (record : Record)
    (rel : Relationship) : List Identity :=
  (d.progress.tables.members schema r record rel).filterMap target.identityOf?

/-- What deleting a row does to the members of one of its relationships. `remove` deletes a member. -/
def releaseMembers (schema : Schema) (remove : Resource → Identity → Deletion → Deletion)
    (r : Resource) (record : Record) (key : String) (d : Deletion) (rel : Relationship) : Deletion :=
  match schema.target? rel with
  | none => d
  | some target =>
    match rel.join with
    | .foreignKey _ _ => d
    | .reverse _ held =>
      (d.memberIdentities schema r target record rel).foldl (fun d member =>
        match rel.cascade with
        | .delete => remove target member d
        | .detach => d.step (·.clear target.name member held)) d
    | .association name own _ =>
      let members := match rel.cascade with
        | .delete => d.memberIdentities schema r target record rel
        | .detach => []
      members.foldl (fun d member => remove target member d) (d.step (·.dropLinks name own key))

/-- What deleting a row does to the rows that refer to it through a relationship of `source`. -/
def releaseReferrers (r : Resource) (record : Record) (key : String) (d : Deletion) :
    Resource × Relationship → Deletion
  | (source, rel) =>
    match rel.join with
    | .foreignKey own referenced =>
      match record.values? referenced with
      | none => d
      | some wanted =>
        let referrers := ((d.progress.tables.rowsOf source.name).filter (·.hasValues own wanted)).filterMap
          source.identityOf?
        (referrers.filter fun i => source.name ≠ r.name || i.key ≠ key).foldl
          (fun d i => d.step (·.clear source.name i own)) d
    | .association name _ other => d.step (·.dropLinks name other key)
    | .reverse _ _ => d

/-- Drops a row and counts it. -/
def dropRow (d : Deletion) (resource key : String) : Deletion :=
  d.step fun p =>
    if (p.tables.rowAt? resource key).isSome then
      { p.withTables (p.tables.dropRow resource key) with writes := p.writes + 1 }
    else p

/-- Deletes an entity that has not been reached yet, and through its relationships those that go
with it. No chain of entities is longer than the number of rows, which is what `fuel` allows. -/
def remove (schema : Schema) : Nat → Resource → Identity → Deletion → Deletion
  | 0, _, _, d => d
  | fuel + 1, r, i, d =>
    if (r.name, i.key) ∈ d.reached then d
    else
      let d := { d with reached := (r.name, i.key) :: d.reached }
      match d.progress.tables.row? r.name i with
      | none => d
      | some record =>
        let d := r.relationships.foldl (releaseMembers schema (remove schema fuel) r record i.key) d
        let d := (schema.incoming r.name).foldl (releaseReferrers r record i.key) d
        d.dropRow r.name i.key

end Deletion

/-- Deletes an entity with everything that goes with it. -/
def removeEntity (p : Progress) (schema : Schema) (r : Resource) (i : Identity) : Progress :=
  (Deletion.remove schema (p.tables.size + 1) r i ⟨p, []⟩).progress

/-! ## Commands -/

/-- The integer after the greatest one in a column, 1 in an empty column; beyond 64 bits it wraps. -/
def nextInteger (t : Tables) (resource column : String) : Int :=
  let used := (t.rowsOf resource).filterMap fun r => (r.get? column).bind Json.int64?
  Int.bmod (used.max?.getD 0 + 1) 0x10000000000000000

/-- Fills the identity columns that the store assigns; the other ones must be set. -/
def fillIdentity (r : Resource) : List Field → Progress → Record → Except Error (Progress × Record)
  | [], p, record => .ok (p, record)
  | f :: fs, p, record =>
    if (record.value? f.column).isSome then fillIdentity r fs p record
    else if !f.generated then .error (.conflict (.identityMissing r.name f.name))
    else if f.type = .integer then
      fillIdentity r fs p (record.insert f.column (.int (nextInteger p.tables r.name f.column)))
    else
      fillIdentity r fs { p with store := { p.store with issued := p.store.issued + 1 } }
        (record.insert f.column (.str (IdentityText.nth p.store.issued)))

def createRow (p : Progress) (schema : Schema) (slot : Nat) (resource : String) (values : Record) :
    Except Error Progress := do
  let r ← schema.require resource
  if slot ≠ p.created.length then throw (.store (.slotOutOfOrder slot))
  let (p, record) ← fillIdentity r r.identityFields p values
  match r.identityOf? record with
  | none => throw (.store (.rowWithoutIdentity r.name))
  | some i =>
    if (p.tables.row? r.name i).isSome then throw (.conflict (.alreadyExists r.name i.key))
    else
      let p := p.writeRow r.name i.key record
      pure { p with created := p.created ++ [i] }

/-- Writes values over those of a row; an update that changes nothing is no write. -/
def updateRow (p : Progress) (schema : Schema) (resource : String) (target : EntityRef)
    (values : Record) : Except Error Progress := do
  let r ← schema.require resource
  let i ← p.resolve target
  match p.tables.row? r.name i with
  | none => throw (.notFound r.name i.key)
  | some record =>
    let next := record.union values
    if Record.same next record then pure p
    else if (r.identityOf? next).map Identity.key ≠ some i.key then
      throw (.conflict (.identityChanges r.name i.key))
    else pure (p.writeRow r.name i.key next)

def deleteRow (p : Progress) (schema : Schema) (resource : String) (target : EntityRef) :
    Except Error Progress := do
  let r ← schema.require resource
  let i ← p.resolve target
  match p.tables.row? r.name i with
  | none => throw (.notFound r.name i.key)
  | some _ => pure (p.removeEntity schema r i)

/-- The link that pairs two entities. -/
def linkOf (own other : String) (parent child : Identity) : Link :=
  Dict.ofList [(own, parent.key), (other, child.key)]

/-- Makes `child` a member of a relationship of `parent`; both must exist. -/
def addMember (p : Progress) (schema : Schema) (c : LinkChange) : Except Error Progress := do
  let r ← schema.require c.resource
  let rel ← r.requireRelationship c.relationship
  let target ← schema.require rel.target
  let parent ← p.resolve c.parent
  let child ← p.resolve c.child
  match p.tables.row? r.name parent, p.tables.row? target.name child with
  | none, _ => throw (.notFound r.name parent.key)
  | some _, none => throw (.notFound target.name child.key)
  | some parentRow, some childRow =>
    match rel.join with
    | .foreignKey own referenced =>
      match childRow.values? referenced with
      | some values => pure (p.assign r.name parent own values)
      | none => throw (.conflict (.noKeyToLink target.name child.key rel.name))
    | .reverse own held =>
      match parentRow.values? own with
      | some values => pure (p.assign target.name child held values)
      | none => throw (.conflict (.noKeyToLink r.name parent.key rel.name))
    | .association name own other =>
      let link := linkOf own other parent child
      let added := p.withTables (p.tables.putLink name link)
      if (p.tables.linksOf name).contains link then pure added
      else pure { added with writes := p.writes + 1 }

/-- Detaches `child` from a relationship of `parent`, if it is a member. Where the relationship
deletes what is detached, the member is deleted. -/
def dropMember (p : Progress) (schema : Schema) (c : LinkChange) : Except Error Progress := do
  let r ← schema.require c.resource
  let rel ← r.requireRelationship c.relationship
  let target ← schema.require rel.target
  let parent ← p.resolve c.parent
  let child ← p.resolve c.child
  match p.tables.row? r.name parent with
  | none => throw (.notFound r.name parent.key)
  | some parentRow =>
    let members := p.tables.members schema r parentRow rel
    if members.any fun member => (target.identityOf? member).any (·.key = child.key) then
      let detached := match rel.join with
        | .foreignKey own _ => p.clear r.name parent own
        | .reverse _ held => if rel.cascade = .detach then p.clear target.name child held else p
        | .association name own other =>
          let link := linkOf own other parent child
          if (p.tables.linksOf name).contains link then
            { p.withTables (p.tables.filterLinks name (· ≠ link)) with writes := p.writes + 1 }
          else p
      pure (if rel.cascade = .delete then detached.removeEntity schema target child else detached)
    else pure p

/-- Applies one command. -/
def apply (schema : Schema) (p : Progress) : Command → Except Error Progress
  | .create slot resource values => p.createRow schema slot resource values
  | .update resource target values => p.updateRow schema resource target values
  | .delete resource target => p.deleteRow schema resource target
  | .link change => p.addMember schema change
  | .unlink change => p.dropMember schema change

/-- The first required column that is empty in a row that was written and still exists. -/
def emptyColumn? (p : Progress) (schema : Schema) : Option ConflictFault :=
  p.touched.findSome? fun (resource, key) => do
    let record ← p.tables.rowAt? resource key
    let r ← schema.resource? resource
    let field ← r.fields.find? fun (f : Field) => !f.optional && (record.value? f.column).isNone
    some (.columnEmpty resource key field.name)

end Progress

namespace Store

/-- Applies the commands of a plan in order. -/
def apply (schema : Schema) (s : Store) (plan : Plan) : Except Error (Store × Report) := do
  let p ← plan.commands.foldlM (Progress.apply schema) { store := s }
  match p.emptyColumn? schema with
  | some fault => throw (.conflict fault)
  | none => pure (p.store, { created := p.created, writes := p.writes })

end Store

end NestedResources
