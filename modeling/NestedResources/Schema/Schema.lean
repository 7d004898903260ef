import NestedResources.Error

/-!
# Schemas

A schema is a set of resources that fit together. It is built by `Schema.ofList`, which reports the
first fault, so every schema at hand is free of faults: look-ups by name give resources of that name
and the target of every relationship exists.
-/
namespace NestedResources

namespace Resource

/-- The first fault of fields whose predecessors have the names `seen`. -/
def fieldFault? (r : Resource) (seen : List String) : List Field → Option SchemaFault
  | [] => none
  | f :: fs =>
    if f.name ∈ seen then some (.fieldTwice f.name)
    else if (r.relationship? f.name).isSome then some (.fieldAndRelationship f.name)
    else r.fieldFault? (f.name :: seen) fs

/-- The first of `columns` that is no column of the resource. -/
def unknownColumn? (r : Resource) (columns : List String) : Option String :=
  columns.find? fun c => (r.fieldByColumn? c).isNone

/-- The first fault of a join by columns: `holder` holds in `holding` what `owner` has in `owned`. -/
def columnFault? (relationship : String) (holder : Resource) (holding : List String)
    (owner : Resource) (owned : List String) : Option SchemaFault :=
  ((holder.unknownColumn? holding).map (.unknownHolderColumn relationship holder.name)).or
    ((owner.unknownColumn? owned).map (.unknownReferencedColumn relationship owner.name))

def joinFault? (r target : Resource) (rel : Relationship) : Option SchemaFault :=
  match rel.join with
  | .foreignKey own referenced =>
    if own = [] ∨ own.length ≠ referenced.length then some (.mismatchedColumns rel.name)
    else columnFault? rel.name r own target referenced
  | .reverse own held =>
    if own = [] ∨ own.length ≠ held.length then some (.mismatchedColumns rel.name)
    else columnFault? rel.name target held r own
  | .association table own other =>
    if table = "" ∨ own = "" ∨ other = "" ∨ own = other then some (.invalidAssociation rel.name)
    else none

def inverseFault? (target : Resource) (rel : Relationship) : Option SchemaFault :=
  rel.inverse.bind fun inverse =>
    if (target.relationship? inverse).isNone then
      some (.unknownInverse rel.name target.name inverse)
    else none

def relationshipFault? (among : Dict Resource) (r : Resource) (rel : Relationship) :
    Option SchemaFault :=
  match among.get? rel.target with
  | none => some (.unknownTarget rel.name rel.target)
  | some target => (joinFault? r target rel).or (inverseFault? target rel)

/-- The first fault of a resource among others. -/
def fault? (among : Dict Resource) (r : Resource) : Option SchemaFault :=
  if r.identity = [] then some .noIdentity
  else ((r.identity.find? fun id => (r.field? id).isNone).map .identityUndeclared).or
    ((r.fieldFault? [] r.fields).or (r.relationships.findSome? (r.relationshipFault? among)))

end Resource

/-- Resources by name that fit together. -/
structure Schema where
  table : Dict Resource
  named : ∀ e ∈ table.entries, e.2.name = e.1
  faultless : ∀ e ∈ table.entries, e.2.fault? table = none

namespace Schema

/-- Files resources under their names; the error names one that is there already. -/
def file (table : Dict Resource) : List Resource → Except Error (Dict Resource)
  | [] => .ok table
  | r :: rs =>
    if table.contains r.name then .error (.invalidSchema r.name .registeredTwice)
    else file (table.insert r.name r) rs

theorem named_of_file {table filed : Dict Resource} {rs : List Resource}
    (named : ∀ e ∈ table.entries, e.2.name = e.1) (h : file table rs = .ok filed) :
    ∀ e ∈ filed.entries, e.2.name = e.1 := by
  induction rs generalizing table with
  | nil =>
    cases h
    exact named
  | cons r rs ih =>
    unfold file at h
    split at h
    · cases h
    · refine ih ?_ h
      intro e he
      rcases Entries.mem_insert he with rfl | he
      · rfl
      · exact named e he

/-- The schema of these resources. Faults are reported in the order of names. -/
def ofList (resources : List Resource) : Except Error Schema :=
  match h : file .empty resources with
  | .error e => .error e
  | .ok table =>
    match hf : table.entries.findSome? (fun e => (e.2.fault? table).map (e.1, ·)) with
    | some (name, fault) => .error (.invalidSchema name fault)
    | none => .ok {
        table
        named := named_of_file (by simp [Dict.empty]) h
        faultless := fun e he => by
          have := List.findSome?_eq_none_iff.1 hf e he
          simpa using this }

/-- The resources in the order of names. -/
def resources (s : Schema) : List Resource := s.table.values

def resource? (s : Schema) (name : String) : Option Resource := s.table.get? name

/-- The resource of a name; an unknown one is not found. -/
def require (s : Schema) (name : String) : Except Error Resource :=
  match s.resource? name with
  | some r => .ok r
  | none => .error (.notFound name "resource")

/-- The resource that a relationship leads to. -/
def target? (s : Schema) (rel : Relationship) : Option Resource := s.resource? rel.target

/-- The relationships that lead to a resource, each with the resource it belongs to. -/
def incoming (s : Schema) (target : String) : List (Resource × Relationship) :=
  s.resources.flatMap fun source =>
    (source.relationships.filter (·.target = target)).map (source, ·)

theorem name_of_resource? {s : Schema} {name : String} {r : Resource}
    (h : s.resource? name = some r) : r.name = name :=
  s.named _ (Dict.get?_eq_some_iff.1 h)

theorem fault?_of_resource? {s : Schema} {name : String} {r : Resource}
    (h : s.resource? name = some r) : r.fault? s.table = none :=
  s.faultless _ (Dict.get?_eq_some_iff.1 h)

end Schema

end NestedResources
