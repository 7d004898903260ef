import NestedResources.Demo.Music
import NestedResources.Filter.Compile
import NestedResources.Proofs.Schema.Lookup
import NestedResources.Proofs.Store.Predicate

/-!
# What filters mean

The meaning of a filter is defined on the filter itself: a comparison holds of a row if a chain of
members leads from it along the path to a row with such a field. Every member of a chain has to meet
what the gate of its resource requires, which is a filter with a meaning of its own. The main
statement is that compiling a filter keeps its meaning (`passes_restricted_eq_meaning`).
-/
namespace NestedResources

namespace Comparison

variable (t : Tables) (schema : Schema) (sees : Resource → Record → Bool) (c : Comparison)

/-- Whether a field of a row compares as wanted with the value, which is read in the field's type. -/
def test (r : Resource) (record : Record) (name : String) : Bool :=
  match r.field? name with
  | none => false
  | some f => match f.type.coerce c.value with
    | .error _ => false
    | .ok value => c.operator.holds f.type (record.get? f.column) value

/-- Whether a chain of members leads from a row along relationships to a row that passes the test of
the last segment. Only members that are seen are links of a chain. -/
def reaches : Resource → Record → List String → Bool
  | _, _, [] => false
  | r, record, [name] => c.test r record name
  | r, record, name :: next :: rest =>
    match r.relationship? name with
    | none => false
    | some rel => match schema.target? rel with
      | none => false
      | some target => (t.members schema r record rel).any fun member =>
        sees target member && reaches target member (next :: rest)

end Comparison

namespace Filter

variable (t : Tables) (schema : Schema) (sees : Resource → Record → Bool)

mutual

/-- Whether a filter holds of a row, where `sees` says which members a path may lead through. -/
def holds (r : Resource) (record : Record) : Filter → Bool
  | and children => holdsAll r record children
  | or children => holdsAny r record children
  | not children => !holdsAll r record children
  | compare c => c.reaches t schema sees r record (Text.fields '.' c.path)

def holdsAll (r : Resource) (record : Record) : List Filter → Bool
  | [] => true
  | f :: fs => holds r record f && holdsAll r record fs

def holdsAny (r : Resource) (record : Record) : List Filter → Bool
  | [] => false
  | f :: fs => holds r record f || holdsAny r record fs

end

end Filter

/-- Whether a row meets what its gate requires. Required filters are followed `levels` deep into each
other, since they may lead back to themselves; what lies deeper is decided by `beyond`. -/
def Registry.sees (g : Registry) (ctx : Context) (t : Tables) (beyond : Resource → Record → Bool) :
    Nat → Resource → Record → Bool
  | 0, r, record => beyond r record
  | levels + 1, r, record => ((g.gate r.name).required r ctx).all
    (·.holds t g.schema (sees g ctx t beyond levels) r record)

namespace Comparison

variable {t : Tables} {schema : Schema} {sees : Resource → Record → Bool} {c : Comparison}

/-- One crossing of a path that goes on behind it. -/
theorem reaches_cons {r target : Resource} {rel : Relationship} {name : String} {rest : List String}
    (hrel : r.relationship? name = some rel) (htarget : schema.resource? rel.target = some target)
    (hrest : rest ≠ []) (record : Record) :
    c.reaches t schema sees r record (name :: rest) =
      (t.members schema r record rel).any fun member =>
        sees target member && c.reaches t schema sees target member rest := by
  obtain ⟨next, rest, rfl⟩ := List.exists_cons_of_ne_nil hrest
  simp [reaches, hrel, Schema.target?, htarget]

end Comparison

namespace Filter

variable {t : Tables} {schema : Schema} {sees : Resource → Record → Bool}
  {required : Resource → Except Error (Option Predicate)}

theorem holdsAll_eq_all {r : Resource} {record : Record} (fs : List Filter) :
    holdsAll t schema sees r record fs = fs.all (holds t schema sees r record) := by
  induction fs with
  | nil => rfl
  | cons f fs ih => rw [holdsAll, ih, List.all_cons]

/-- What is asked for in addition holds in addition. -/
theorem all_holds_conjoin {r : Resource} {record : Record} (f : Option Filter) (piece : Filter) :
    (conjoin f (some piece)).all (holds t schema sees r record)
      = (f.all (holds t schema sees r record) && piece.holds t schema sees r record) := by
  unfold conjoin
  split <;> simp_all [holds, holdsAll_eq_all]

/-- What crossings require lets through the rows that are seen. -/
def Enforces (t : Tables) (schema : Schema) (required : Resource → Except Error (Option Predicate))
    (sees : Resource → Record → Bool) : Prop :=
  ∀ name r filter, schema.resource? name = some r → required r = .ok filter →
    ∀ record, t.passes schema r filter record = sees r record

/-- A compiled comparison tests the field. -/
theorem holds_compileLeaf {r : Resource} {name : String} {f : Field} {c : Comparison} {p : Predicate}
    (hf : r.field? name = some f) (h : compileLeaf f c = .ok p) (record : Record) :
    p.holds t schema r record = c.test r record name := by
  unfold compileLeaf at h
  split at h
  · cases h
  · rename_i value hv
    split at h
    · cases h
    · cases h
      simp [Predicate.holds, Comparison.test, hf, hv]

/-- A predicate behind crossings holds of the rows from which a chain leads to it. -/
theorem holds_behind (hreq : Enforces t schema required sees) {display name : String} {c : Comparison}
    {leaf : Predicate} {last : Resource}
    (hleaf : ∀ record, leaf.holds t schema last record = c.test last record name)
    {segments : List String} {r : Resource} {hops : List Hop} {p : Predicate}
    (hcross : schema.cross display r segments = .ok (hops, last))
    (hp : behind schema required hops leaf = .ok p) (record : Record) :
    p.holds t schema r record = c.reaches t schema sees r record (segments ++ [name]) := by
  induction segments generalizing r hops p record with
  | nil =>
    cases hcross
    cases hp
    exact hleaf record
  | cons segment rest ih =>
    unfold Schema.cross at hcross
    split at hcross
    · cases hcross
    · rename_i rel hrel
      obtain ⟨target, htarget, hcross⟩ := Except.bind_eq_ok.1 hcross
      obtain ⟨⟨hops', last'⟩, hrest, hcross⟩ := Except.bind_eq_ok.1 hcross
      cases hcross
      obtain ⟨inner, hinner, hp⟩ := Except.bind_eq_ok.1 hp
      obtain ⟨target', htarget', hp⟩ := Except.bind_eq_ok.1 hp
      obtain ⟨filter, hfilter, hp⟩ := Except.bind_eq_ok.1 hp
      cases hp
      cases htarget.symm.trans htarget'
      have hresource := Schema.require_eq_ok.1 htarget
      rw [List.cons_append, Comparison.reaches_cons hrel hresource (by simp)]
      have hlink (member : Record) :
          ((Predicate.conjoin (some inner) filter).getD (.and [])).holds t schema target member =
            (sees target member && c.reaches t schema sees target member (rest ++ [name])) := by
        rw [Predicate.holds_conjoin_getD, ih hrest hinner, hreq _ _ _ hresource hfilter, Bool.and_comm]
      simp only [Predicate.holds, Resource.name_of_relationship? hrel, hrel, hresource, hlink]

/-- A compiled comparison holds of the rows from which its path reaches a field that passes. -/
theorem holds_compileWith_compare (hreq : Enforces t schema required sees) {r : Resource}
    {c : Comparison} {p : Predicate} (h : compileWith schema required r (.compare c) = .ok p)
    (record : Record) :
    p.holds t schema r record = holds t schema sees r record (.compare c) := by
  simp only [compileWith] at h
  obtain ⟨path, hpath, h⟩ := Except.bind_eq_ok.1 h
  obtain ⟨leaf, hleaf, h⟩ := Except.bind_eq_ok.1 h
  obtain ⟨hcross, hfield, -⟩ := Schema.fieldPath_eq_ok hpath
  have hne : Text.fields '.' c.path ≠ [] := by
    simp [Text.fields, Text.split_ne_nil]
  rw [holds_behind hreq (fun record => holds_compileLeaf hfield hleaf record) hcross h,
    List.dropLast_append_getLastD hne, holds]

mutual

/-- Compiling keeps the meaning of a filter, if crossings require what is seen. -/
theorem holds_compileWith (hreq : Enforces t schema required sees) {r : Resource} (record : Record) :
    ∀ {f : Filter} {p : Predicate}, compileWith schema required r f = .ok p →
      p.holds t schema r record = holds t schema sees r record f
  | .and children, p, h => by
    obtain ⟨ps, hps, rfl⟩ := Except.map_eq_ok.1 h
    exact (holdsAll_compileAll hreq record hps).1
  | .or children, p, h => by
    obtain ⟨ps, hps, rfl⟩ := Except.map_eq_ok.1 h
    exact (holdsAll_compileAll hreq record hps).2
  | .not children, p, h => by
    obtain ⟨ps, hps, rfl⟩ := Except.map_eq_ok.1 h
    simp [Predicate.holds, holds, (holdsAll_compileAll hreq record hps).1]
  | .compare c, p, h => holds_compileWith_compare hreq h record

theorem holdsAll_compileAll (hreq : Enforces t schema required sees) {r : Resource}
    (record : Record) : ∀ {fs : List Filter} {ps : List Predicate},
      compileAll schema required r fs = .ok ps →
      Predicate.holdsAll t schema r record ps = holdsAll t schema sees r record fs ∧
        Predicate.holdsAny t schema r record ps = holdsAny t schema sees r record fs
  | [], ps, h => by
    cases h
    simp [Predicate.holdsAll, Predicate.holdsAny, holdsAll, holdsAny]
  | f :: fs, ps, h => by
    obtain ⟨p, hp, h⟩ := Except.bind_eq_ok.1 h
    obtain ⟨rest, hrest, h⟩ := Except.bind_eq_ok.1 h
    cases h
    have hhead := holds_compileWith hreq record hp
    have htail := holdsAll_compileAll hreq record hrest
    simp [Predicate.holdsAll, Predicate.holdsAny, holdsAll, holdsAny, hhead, htail]

end

end Filter

namespace Registry

variable {g : Registry} {ctx : Context} (t : Tables) (beyond : Resource → Record → Bool)

/-- What a gate requires is the meaning of its filter. Compiling within some steps opens at most as
many required filters inside each other. -/
theorem passes_requiredWithin {steps levels : Nat} (hle : steps ≤ levels) :
    Filter.Enforces t g.schema (g.requiredWithin ctx steps) (g.sees ctx t beyond levels) := by
  induction steps using Nat.strongRecOn generalizing levels with
  | ind steps ih =>
    intro name r filter hr h record
    cases steps with
    | zero => cases h
    | succ steps =>
      obtain ⟨levels, rfl⟩ : ∃ n, levels = n + 1 := ⟨levels - 1, by omega⟩
      rw [requiredWithin.eq_def] at h
      cases hf : (g.gate r.name).required r ctx with
      | none =>
        simp only [hf] at h
        cases h
        simp [sees, hf, Tables.passes]
      | some f =>
        simp only [hf] at h
        obtain ⟨r', hr', h⟩ := Except.bind_eq_ok.1 h
        obtain ⟨p, hp, rfl⟩ := Except.map_eq_ok.1 h
        have hname := Schema.name_of_resource? hr
        rw [hname, Schema.require_eq_ok, hr] at hr'
        cases hr'
        simp only [Tables.passes, sees, hf, Option.all_some]
        cases steps with
        | zero =>
          refine Filter.holds_compileWith ?_ record hp
          intro _ _ _ _ hcrossing
          cases hcrossing
        | succ left => exact Filter.holds_compileWith (ih left (by omega) (by omega)) record hp

/-- The compiled filter of a request means what the filter means. -/
theorem holds_compile {levels : Nat} (hle : requiredDepth ≤ levels) {r : Resource} {f : Filter}
    {p : Predicate} (h : g.compile ctx r f = .ok p) (record : Record) :
    p.holds t g.schema r record = f.holds t g.schema (g.sees ctx t beyond levels) r record :=
  Filter.holds_compileWith (passes_requiredWithin t beyond hle) record h

/-- The rows that pass what a gate requires are those that are seen. -/
theorem passes_required {levels : Nat} (hlt : requiredDepth < levels) {name : String} {r : Resource}
    (hr : g.schema.resource? name = some r) {filter : Option Predicate}
    (h : g.required ctx r = .ok filter) (record : Record) :
    t.passes g.schema r filter record = g.sees ctx t beyond levels r record :=
  passes_requiredWithin t beyond hlt name r filter hr h record

/-- What a gate requires compiles along with every filter of a request. -/
theorem required_of_restricted {r : Resource} {f : Option Filter} {p : Option Predicate}
    (h : g.restricted ctx r f = .ok p) : ∃ filter, g.required ctx r = .ok filter := by
  cases f with
  | none =>
    obtain ⟨_, _, h⟩ := Except.bind_eq_ok.1 h
    obtain ⟨filter, hfilter, _⟩ := Except.bind_eq_ok.1 h
    exact ⟨filter, hfilter⟩
  | some f =>
    obtain ⟨_, _, h⟩ := Except.bind_eq_ok.1 h
    obtain ⟨filter, hfilter, _⟩ := Except.bind_eq_ok.1 h
    exact ⟨filter, hfilter⟩

/-- The rows that pass a filter of a request and what the gate requires. -/
theorem passes_restricted {levels : Nat} (hlt : requiredDepth < levels) {name : String}
    {r : Resource} (hr : g.schema.resource? name = some r) {f : Option Filter}
    {p : Option Predicate} (h : g.restricted ctx r f = .ok p) (record : Record) :
    t.passes g.schema r p record =
      (f.all (·.holds t g.schema (g.sees ctx t beyond levels) r record) &&
        g.sees ctx t beyond levels r record) := by
  cases f with
  | none =>
    obtain ⟨explicit, hexplicit, h⟩ := Except.bind_eq_ok.1 h
    obtain ⟨filter, hfilter, h⟩ := Except.bind_eq_ok.1 h
    cases hexplicit
    cases h
    rw [Predicate.passes_conjoin, passes_required t beyond hlt hr hfilter]
    rfl
  | some f =>
    obtain ⟨explicit, hexplicit, h⟩ := Except.bind_eq_ok.1 h
    obtain ⟨filter, hfilter, h⟩ := Except.bind_eq_ok.1 h
    obtain ⟨p, hp, rfl⟩ := Except.map_eq_ok.1 hexplicit
    cases h
    rw [Predicate.passes_conjoin, passes_required t beyond hlt hr hfilter]
    simp [Tables.passes, holds_compile t beyond (Nat.le_of_lt hlt) hp]

/-- What a row has to pass for a filter of a request is what the filter means and what the required
filter means. Neither depends on how deep required filters are followed, once that is deeper than
compiling goes, nor on what lies beyond. Flattening conjunctions on the way changes nothing. -/
theorem passes_restricted_eq_meaning {name : String} {r : Resource}
    (hr : g.schema.resource? name = some r) {f : Filter} {p : Option Predicate}
    (h : g.restricted ctx r (some f) = .ok p) {levels : Nat} (hlt : requiredDepth < levels)
    (record : Record) :
    t.passes g.schema r p record =
        (f.holds t g.schema (g.sees ctx t beyond levels) r record &&
          ((g.gate r.name).required r ctx).all
            (·.holds t g.schema (g.sees ctx t beyond levels) r record)) ∧
      (∀ ps : List Predicate, (Predicate.all ps).holds t g.schema r record =
        ps.all (·.holds t g.schema r record)) ∧
      ∀ left right : Option Predicate, t.passes g.schema r (Predicate.conjoin left right) record =
        (t.passes g.schema r left record && t.passes g.schema r right record) := by
  refine ⟨?_, Predicate.holds_all t g.schema r record, Predicate.passes_conjoin t g.schema r record⟩
  obtain ⟨filter, hfilter⟩ := required_of_restricted h
  have hsees := passes_required t beyond hlt hr hfilter record
  have hdeeper := passes_required t beyond (Nat.lt_succ_of_lt hlt) hr hfilter record
  rw [passes_restricted t beyond hlt hr h, ← hsees, hdeeper]
  rfl

end Registry

namespace Music

/-- The staff alone, each of whom sees themselves and those who report to them. -/
def staff : Registry where
  schema := {
    table := .ofList [("employees", employees)]
    named := by decide +kernel
    faultless := by decide +kernel }
  gates := [("employees", staffGate)]
  relationshipGates := []

def asUser (id : Int) : Context := ⟨.ofList [("user", .int id)]⟩

def staffTables (rows : List Employee) : Tables :=
  rows.foldl (fun t e => t.putRow "employees" (keyOf e.id) e.record) .empty

/-- Those who do not report to somebody named Adams: Adams is hidden from the second employee, who
is then among them. -/
def notUnderAdams : Filter := .not [.compare ⟨"manager.last_name", .eq, .str "Adams"⟩]

def second : Employee := ⟨2, "Nancy", "Edwards", "Sales Manager", some 1, "nancy@chinookcorp.com"⟩

theorem passes_restricted_notUnderAdams : ∃ p,
    staff.restricted (asUser 2) employees (some notUnderAdams) = .ok p ∧
      (staffTables employeeRows).passes staff.schema employees p second.record = true := by
  have hemployees : staff.schema.resource? "employees" = some employees := by decide +kernel
  have hok : (staff.restricted (asUser 2) employees (some notUnderAdams)).isOk := by decide +kernel
  obtain ⟨p, hp⟩ := Except.exists_of_isOk hok
  have hmeaning := (Registry.passes_restricted_eq_meaning (staffTables employeeRows) (fun _ _ => true)
    hemployees hp (by decide : requiredDepth < 9) second.record).1
  refine ⟨p, hp, ?_⟩
  rw [hmeaning]
  decide +kernel

end Music

end NestedResources
