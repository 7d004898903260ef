import NestedResources.Proofs.Write.Joined
import NestedResources.Proofs.Write.Sole

/-!
# Relationships seen from both ends

A relationship and the one that mirrors it are kept in the same place: in the same foreign key, or in the
same links. So they pair the same rows, and a link or an unlink of two entities does the same from either
end (`Schema.Mirrored.same_from_both_ends`).
-/
namespace NestedResources

/-! ## Equality of column values -/

theorem Number.compare_swap (m n : Number) : n.compare m = (m.compare n).map Ordering.swap := by
  have hints : ∀ a b : Int, Ord.compare b a = (Ord.compare a b).swap := fun a b => Std.OrientedCmp.eq_swap
  unfold compare
  cases m.toInt64? <;> cases n.toInt64?
  case some.some a b => exact congrArg some (hints a b)
  all_goals
    cases m.toBinary64? <;> cases n.toBinary64?
    case some.some x y => exact congrArg some (hints x.units y.units)
    all_goals rfl

theorem comparesEqual_json_comm (a b : Json) : comparesEqual .json a b = comparesEqual .json b a := by
  have hswap : compareValues .json b a = (compareValues .json a b).map Ordering.swap := by
    cases a <;> cases b <;> try rfl
    case num.num m n => exact m.compare_swap n
    case bool.bool x y => cases x <;> cases y <;> rfl
    case str.str x y => exact congrArg some Std.OrientedCmp.eq_swap
  rw [comparesEqual, comparesEqual, hswap]
  rcases compareValues .json a b with _ | order
  · rfl
  · cases order <;> rfl

/-- Column values are equal from either side. -/
theorem sameValue_comm (a b : Json) : sameValue a b = sameValue b a := by
  rw [sameValue, sameValue, Json.same_comm, comparesEqual_json_comm]

/-- Columns hold what other columns have if and only if they are equal one by one and all set. -/
theorem Record.exists_values?_hasValues_iff {record member : Record} {own far : List String}
    (hlength : own.length = far.length) :
    (∃ vs, record.values? own = some vs ∧ member.hasValues far vs = true) ↔
      List.Forall₂ (fun c d => ∃ v w, record.value? c = some v ∧ member.value? d = some w ∧
        sameValue w v = true) own far := by
  constructor
  · rintro ⟨vs, hvs, hholds⟩
    have hset := ne_null_of_values? hvs
    have hown := mapM_eq_some.1 hvs
    clear hvs
    induction hown generalizing far with
    | nil => cases far with
      | nil => exact .nil
      | cons d ds => cases hlength
    | @cons c v cs vs hv _ ih => cases far with
      | nil => cases hlength
      | cons d ds =>
        obtain ⟨hnull, hnulls⟩ := List.forall_mem_cons.1 hset
        rw [hasValues_iff, List.zip_cons_cons, List.forall_mem_cons] at hholds
        obtain ⟨⟨w, hw, hsame⟩, hrest⟩ := hholds
        have hwset : w ≠ .null := by
          rintro rfl
          rw [sameValue_null hnull] at hsame
          cases hsame
        exact .cons ⟨v, w, hv, value?_of_get? hw hwset, hsame⟩
          (ih (Nat.succ.inj hlength) (hasValues_iff.2 hrest) hnulls)
  · intro h
    clear hlength
    induction h with
    | nil => exact ⟨[], rfl, rfl⟩
    | cons hcolumn _ ih =>
      obtain ⟨v, w, hv, hw, hsame⟩ := hcolumn
      obtain ⟨vs, hvs, hholds⟩ := ih
      refine ⟨v :: vs, mapM_eq_some.2 (.cons hv (mapM_eq_some.1 hvs)), hasValues_iff.2 ?_⟩
      rw [List.zip_cons_cons, List.forall_mem_cons]
      exact ⟨⟨w, get?_of_value? hw, hsame⟩, hasValues_iff.1 hholds⟩

/-! ## Rows that are paired -/

/-- Whether a join leads from one row to another: the columns of the other hold what those of the one have,
or a link pairs their keys. -/
def Join.Pairs (join : Join) (t : Tables) (key : String) (record : Record) (other : String) (member : Record) :
    Prop :=
  match join with
  | .foreignKey own far | .reverse own far =>
    ∃ vs, record.values? own = some vs ∧ member.hasValues far vs = true
  | .association table own far =>
    ∃ link ∈ (t.linksOf table).links, link.get? own = some key ∧ link.get? far = some other

variable {s : Schema} {t : Tables} {r target : Resource} {rel : Relationship}

/-- The members of a relationship of a row are the rows that its join pairs with it. -/
theorem Tables.mem_memberKeys_iff_pairs (hfiled : t.Filed s) (hr : s.resource? r.name = some r)
    (htarget : s.target? rel = some target) {key other : String} {record : Record}
    (hrow : t.rowAt? r.name key = some record) :
    other ∈ t.memberKeys s r target record rel ↔
      ∃ member, t.rowAt? target.name other = some member ∧ rel.join.Pairs t key record other member := by
  have hresource : s.resource? target.name = some target := Schema.resource?_of_target? htarget
  have hcolumns : rel.join.table? = none → (other ∈ t.memberKeys s r target record rel ↔
      ∃ member, t.rowAt? target.name other = some member ∧
        ∃ vs, record.values? rel.join.near = some vs ∧ member.hasValues rel.join.far vs = true) := by
    intro hjoin
    rw [mem_memberKeys]
    constructor
    · rintro ⟨member, hmember, i, hi, rfl⟩
      obtain ⟨⟨k, hk⟩, hvalues⟩ := (mem_members_of_columns htarget hjoin).1 hmember
      obtain ⟨j, hj, rfl⟩ := hfiled _ _ _ _ hresource hk
      cases hj.symm.trans hi
      exact ⟨member, hk, hvalues⟩
    · rintro ⟨member, hmember, hvalues⟩
      exact ⟨member, (mem_members_of_columns htarget hjoin).2 ⟨⟨other, hmember⟩, hvalues⟩,
        hfiled _ _ _ _ hresource hmember⟩
  cases hjoin : rel.join with
  | foreignKey own far | reverse own far =>
    rw [hjoin] at hcolumns
    exact hcolumns rfl
  | association table own far =>
    obtain ⟨i, hi, rfl⟩ := hfiled _ _ _ _ hr hrow
    rw [mem_memberKeys_of_association hfiled htarget hjoin hi]
    exact exists_and_right.symm

/-- A join with as many columns on either side pairs two rows if and only if its other end does. -/
theorem Join.pairs_flip {join : Join} (hlength : join.near.length = join.far.length) {key other : String}
    {record member : Record} :
    join.flip.Pairs t other member key record ↔ join.Pairs t key record other member := by
  have hcolumns : ∀ {own far : List String}, own.length = far.length →
      ((∃ vs, member.values? far = some vs ∧ record.hasValues own vs = true) ↔
        ∃ vs, record.values? own = some vs ∧ member.hasValues far vs = true) := by
    intro own far hlength
    rw [Record.exists_values?_hasValues_iff hlength, Record.exists_values?_hasValues_iff hlength.symm]
    refine ⟨fun h => .flip (h.imp ?_), fun h => .flip (h.imp ?_)⟩
    · rintro c d ⟨v, w, hv, hw, hsame⟩
      exact ⟨w, v, hw, hv, sameValue_comm v w ▸ hsame⟩
    · rintro c d ⟨v, w, hv, hw, hsame⟩
      exact ⟨w, v, hw, hv, sameValue_comm v w ▸ hsame⟩
  cases join with
  | foreignKey own far | reverse own far => exact hcolumns hlength
  | association table own far =>
    exact exists_congr fun link => and_congr_right fun _ => and_comm

/-- The columns on either side of a join pair up. -/
theorem Schema.Declares.length_near (h : s.Declares r rel) : rel.join.near.length = rel.join.far.length := by
  cases hjoin : rel.join with
  | foreignKey own referenced =>
    exact (h.hasKey_own hjoin).columns.2
  | reverse own held =>
    exact (h.hasKey_held hjoin).columns.2.symm
  | association table own other => rfl

/-! ## Mirrored relationships -/

theorem Join.flip_flip (join : Join) : join.flip.flip = join := by
  cases join <;> rfl

/-- Two relationships that are one, seen from both ends, and delete nothing that they detach. -/
structure Schema.Mirrored (s : Schema) (r r' : Resource) (rel inv : Relationship) : Prop where
  resource : s.resource? r.name = some r
  resource' : s.resource? r'.name = some r'
  relationship : r.relationship? rel.name = some rel
  inverse : r'.relationship? inv.name = some inv
  mirrors : rel.Mirrors r inv r'
  detaches : rel.cascade = .detach
  detaches' : inv.cascade = .detach

/-- The link of two entities is the same from either end. -/
theorem Progress.linkOf_comm {own other : String} (h : own ≠ other) (i j : Identity) :
    linkOf other own j i = linkOf own other i j := by
  have hentries : Entries.ofList [(other, j.key), (own, i.key)] = Entries.ofList [(own, i.key), (other, j.key)] :=
    Entries.insert_comm h i.key j.key []
  exact Dict.ext_get? fun key => congrArg (Entries.get? key) hentries

namespace Schema.Mirrored

variable {r' : Resource} {inv : Relationship} (h : s.Mirrored r r' rel inv)
include h

theorem symm : s.Mirrored r' r inv rel where
  resource := h.resource'
  resource' := h.resource
  relationship := h.inverse
  inverse := h.relationship
  mirrors := ⟨h.mirrors.2.1, h.mirrors.1, by rw [h.mirrors.2.2, Join.flip_flip]⟩
  detaches := h.detaches'
  detaches' := h.detaches

theorem leads : s.target? rel = some r' := by
  rw [target?, h.mirrors.1]
  exact h.resource'

theorem declares : s.Declares r rel := declares_of_relationship? h.resource h.relationship

/-- An entity is a member of another one through a relationship if and only if the other one is a member of
it through the relationship that mirrors it. -/
theorem mem_memberKeys_iff (hfiled : t.Filed s) {i j : String} {record member : Record}
    (hi : t.rowAt? r.name i = some record) (hj : t.rowAt? r'.name j = some member) :
    j ∈ t.memberKeys s r r' record rel ↔ i ∈ t.memberKeys s r' r member inv := by
  rw [Tables.mem_memberKeys_iff_pairs hfiled h.resource h.leads hi,
    Tables.mem_memberKeys_iff_pairs hfiled h.resource' h.symm.leads hj, h.mirrors.2.2]
  simp only [hi, hj, Option.some.injEq, exists_eq_left', Join.pairs_flip h.declares.length_near]

variable {p q : Progress} {i j : Identity} {record member : Record}

theorem attach_iff : p.attach r r' rel i j record member = .ok q ↔
    p.attach r' r inv j i member record = .ok q := by
  have hflip := h.mirrors.2.2
  cases hjoin : rel.join with
  | foreignKey own referenced =>
    rw [hjoin, Join.flip] at hflip
    rw [Progress.attach_own hjoin, Progress.attach_held hflip]
  | reverse own held =>
    rw [hjoin, Join.flip] at hflip
    rw [Progress.attach_held hjoin, Progress.attach_own hflip]
  | association table own other =>
    rw [hjoin, Join.flip] at hflip
    simp only [Progress.attach, hjoin, hflip, Progress.linkOf_comm (ne_of_association h.declares hjoin)]

theorem detach_eq : p.detach r r' rel i j = p.detach r' r inv j i := by
  have hflip := h.mirrors.2.2
  cases hjoin : rel.join with
  | foreignKey own referenced =>
    rw [hjoin, Join.flip] at hflip
    simp only [Progress.detach, hjoin, hflip, h.detaches', if_true]
  | reverse own held =>
    rw [hjoin, Join.flip] at hflip
    simp only [Progress.detach, hjoin, hflip, h.detaches, if_true]
  | association table own other =>
    rw [hjoin, Join.flip] at hflip
    simp only [Progress.detach, hjoin, hflip, Progress.linkOf_comm (ne_of_association h.declares hjoin)]

theorem link_iff (hi : p.tables.row? r.name i = some record) (hj : p.tables.row? r'.name j = some member) :
    p.apply s (.link (Progress.membershipOf r rel i j)) = .ok q ↔
      p.apply s (.link (Progress.membershipOf r' inv j i)) = .ok q := by
  have hends := Progress.ends_membershipOf h.resource h.relationship h.leads p i j
  have hends' := Progress.ends_membershipOf h.resource' h.inverse h.symm.leads p j i
  rw [Progress.apply, Progress.apply, hends.addMember hi hj, hends'.addMember hj hi, h.attach_iff]

theorem unlink_eq (hfiled : p.tables.Filed s) (hi : p.tables.row? r.name i = some record)
    (hj : p.tables.row? r'.name j = some member) :
    p.apply s (.unlink (Progress.membershipOf r rel i j)) =
      p.apply s (.unlink (Progress.membershipOf r' inv j i)) := by
  have hmember : p.isMember s r r' rel record j = p.isMember s r' r inv member i := by
    rw [Bool.eq_iff_iff, Progress.isMember_eq_true, Progress.isMember_eq_true]
    exact h.mem_memberKeys_iff hfiled hi hj
  have hkeeps : ∀ {x : Cascade}, x = .detach → x ≠ .delete := by
    rintro x rfl
    decide
  have hends := Progress.ends_membershipOf h.resource h.relationship h.leads p i j
  have hends' := Progress.ends_membershipOf h.resource' h.inverse h.symm.leads p j i
  rw [Progress.apply, Progress.apply, hends.dropMember hi, hends'.dropMember hj, hmember,
    if_neg (hkeeps h.detaches), if_neg (hkeeps h.detaches'), h.detach_eq]

end Schema.Mirrored

/-- A plan of one command is accepted if the command is and leaves no required column empty. -/
theorem Store.apply_single {store : Store} {c : Command} {result : Store × Report} :
    store.apply s ⟨[c]⟩ = .ok result ↔ ∃ q : Progress, Progress.apply s { store } c = .ok q ∧
      q.emptyColumn? s = none ∧ result = (q.store, ⟨q.created, q.writes⟩) := by
  have hrun : ∀ q : Progress, [c].foldlM (Progress.apply s) { store } = .ok q ↔
      Progress.apply s { store } c = .ok q := by
    intro q
    rw [List.foldlM_cons, Except.bind_eq_ok]
    refine ⟨?_, fun hq => ⟨q, hq, rfl⟩⟩
    rintro ⟨_, hq, hdone⟩
    cases hdone
    exact hq
  rw [apply, Except.bind_eq_ok]
  refine exists_congr fun q => and_congr (hrun q) ?_
  split
  · rename_i fault hfault
    rw [hfault]
    refine ⟨fun hfails => ?_, fun h => ?_⟩
    · cases hfails
    · cases h.1
  · rename_i hnone
    exact ⟨fun h => ⟨hnone, (Except.ok.inj h).symm⟩, fun h => congrArg Except.ok h.2.symm⟩

/-- Two entities that exist are members of each other through mirrored relationships or neither is, and it is
one commit to link them through either relationship, and to unlink them. -/
theorem Schema.Mirrored.same_from_both_ends {r' : Resource} {inv : Relationship}
    (h : s.Mirrored r r' rel inv) {store : Store} (hfiled : store.tables.Filed s) {i j : Identity}
    {record member : Record} (hi : store.tables.row? r.name i = some record)
    (hj : store.tables.row? r'.name j = some member) :
    (j.key ∈ store.tables.memberKeys s r r' record rel ↔
      i.key ∈ store.tables.memberKeys s r' r member inv) ∧
    (∀ result, store.apply s ⟨[.link (Progress.membershipOf r rel i j)]⟩ = .ok result ↔
      store.apply s ⟨[.link (Progress.membershipOf r' inv j i)]⟩ = .ok result) ∧
    ∀ result, store.apply s ⟨[.unlink (Progress.membershipOf r rel i j)]⟩ = .ok result ↔
      store.apply s ⟨[.unlink (Progress.membershipOf r' inv j i)]⟩ = .ok result := by
  refine ⟨h.mem_memberKeys_iff hfiled hi hj, fun result => ?_, fun result => ?_⟩
  · rw [Store.apply_single, Store.apply_single]
    exact exists_congr fun q => and_congr_left fun _ => h.link_iff hi hj
  · rw [Store.apply_single, Store.apply_single, h.unlink_eq (p := { store }) hfiled hi hj]

namespace Music

/-- The relationship of employees to whom they report to. -/
def toManager : Relationship where
  name := "manager"
  target := "employees"
  cardinality := .manyToOne
  join := .foreignKey ["reports_to"] ["employee_id"]
  inverse := some "reports"

/-- The same relationship seen by the manager. -/
def toReports : Relationship where
  name := "reports"
  target := "employees"
  cardinality := .oneToMany
  join := .reverse ["employee_id"] ["reports_to"]
  inverse := some "manager"

theorem mirrored_staff : staff.schema.Mirrored employees employees toManager toReports where
  resource := rfl
  resource' := rfl
  relationship := rfl
  inverse := rfl
  mirrors := ⟨rfl, rfl, rfl⟩
  detaches := rfl
  detaches' := rfl

/-- The third employee has the second one for manager, who has the third among the reports. Both unlinks are
one commit. -/
theorem third_and_second_from_both_ends : ∃ third second,
    (staffTables employeeRows).row? "employees" ⟨[.int 3]⟩ = some third ∧
      (staffTables employeeRows).row? "employees" ⟨[.int 2]⟩ = some second ∧
      "2" ∈ (staffTables employeeRows).memberKeys staff.schema employees employees third toManager ∧
      "3" ∈ (staffTables employeeRows).memberKeys staff.schema employees employees second toReports ∧
      ∃ after report, report.writes = 1 ∧
        Store.apply staff.schema ⟨staffTables employeeRows, 0⟩
          ⟨[.unlink (Progress.membershipOf employees toManager ⟨[.int 3]⟩ ⟨[.int 2]⟩)]⟩ = .ok (after, report) ∧
        Store.apply staff.schema ⟨staffTables employeeRows, 0⟩
          ⟨[.unlink (Progress.membershipOf employees toReports ⟨[.int 2]⟩ ⟨[.int 3]⟩)]⟩ = .ok (after, report) := by
  have hfiled : (Store.mk (staffTables employeeRows) 0).tables.Filed staff.schema :=
    filed_staffTables (by decide)
  have hmanager : ((staffTables employeeRows).row? "employees" ⟨[.int 3]⟩).any fun third =>
      decide ("2" ∈ (staffTables employeeRows).memberKeys staff.schema employees employees third toManager) := rfl
  obtain ⟨third, hthird, htwo⟩ := (Option.any_eq_true _ _).1 hmanager
  obtain ⟨second, hsecond⟩ : ∃ second, (staffTables employeeRows).row? "employees" ⟨[.int 2]⟩ = some second :=
    ⟨_, rfl⟩
  have hdone : (Store.apply staff.schema ⟨staffTables employeeRows, 0⟩
      ⟨[.unlink (Progress.membershipOf employees toManager ⟨[.int 3]⟩ ⟨[.int 2]⟩)]⟩).map (·.2.writes) =
        .ok 1 := rfl
  obtain ⟨⟨after, report⟩, hafter, hwrites⟩ := Except.map_eq_ok.1 hdone
  obtain ⟨hmember, -, hunlink⟩ := mirrored_staff.same_from_both_ends hfiled hthird hsecond
  have hkey : "2" ∈ (staffTables employeeRows).memberKeys staff.schema employees employees third toManager :=
    of_decide_eq_true htwo
  exact ⟨third, second, hthird, hsecond, hkey, hmember.1 hkey, after, report, hwrites, hafter,
    (hunlink _).1 hafter⟩

end Music

end NestedResources
