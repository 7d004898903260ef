import NestedResources.Proofs.Store.Replaced
import NestedResources.Proofs.Write.Pinpoint

/-!
# The member of a relationship to one entity

Members are found by comparing columns. A foreign key that holds the identity of an entity finds this
entity and no other, and an entity that is given the key of another one is its member besides those that
were so before.
-/
namespace NestedResources

/-! ## Comparing values -/

theorem Number.float_compare (x : Binary64) (n : Number) :
    (float x).compare n = n.toBinary64?.map fun y => x.compare y := by
  have hint : (float x).toInt64? = none := rfl
  have hdouble : (float x).toBinary64? = some x := rfl
  rw [compare, hint, hdouble]
  cases n.toBinary64? <;> rfl

theorem Number.compare_float (n : Number) (y : Binary64) :
    n.compare (float y) = n.toBinary64?.map fun x => x.compare y := by
  have hint : (float y).toInt64? = none := rfl
  have hdouble : (float y).toBinary64? = some y := rfl
  rw [compare, hint, hdouble]
  cases n.toInt64? <;> cases n.toBinary64? <;> rfl

/-- Numbers that are the same compare alike with any other one. -/
theorem Number.compare_congr {m n : Number} (h : m.same n = true) (k : Number) :
    m.compare k = n.compare k ∧ k.compare m = k.compare n := by
  cases m with
  | int a =>
    cases n with
    | int b =>
      have hab : a = b := by simpa [same] using h
      rw [hab]
      exact ⟨rfl, rfl⟩
    | float y => cases h
  | float x =>
    cases n with
    | int b => cases h
    | float y =>
      have hunits : x.units = y.units := by simpa [same, Binary64.equals] using h
      rw [float_compare, float_compare, compare_float, compare_float]
      simp only [Binary64.compare, hunits, and_self]

/-- Documents that are the same compare alike with any other one. -/
theorem compareValues_congr {type : FieldType} {a b : Json} (h : a.same b = true) (c : Json) :
    compareValues type a c = compareValues type b c ∧ compareValues type c a = compareValues type c b := by
  cases a <;> cases b <;> try cases h
  case num.num m n =>
    cases c with
    | num k => exact Number.compare_congr h k
    | _ => exact ⟨rfl, rfl⟩
  case bool.bool x y =>
    have hxy : x = y := by simpa [Json.same] using h
    rw [hxy]
    exact ⟨rfl, rfl⟩
  case str.str x y =>
    have hxy : x = y := by simpa [Json.same] using h
    rw [hxy]
    exact ⟨rfl, rfl⟩
  case null.null => exact ⟨rfl, rfl⟩
  case arr.arr => exact ⟨rfl, by cases c <;> rfl⟩
  case obj.obj => exact ⟨rfl, by cases c <;> rfl⟩

/-- A value that is equal to one which compares equal to itself compares equal to it. -/
theorem comparesEqual_of_sameValue {type : FieldType} {a b : Json} (h : sameValue a b = true)
    (hb : comparesEqual type b b = true) : comparesEqual type a b = true := by
  rcases (Bool.or_eq_true ..).mp h with hsame | hequal
  · rwa [comparesEqual, (compareValues_congr hsame b).1]
  · have horder : compareValues .json a b = some .eq := of_decide_eq_true hequal
    cases a <;> cases b <;> try cases horder
    case num.num => exact hequal
    case bool.bool => exact hequal
    case str.str s t =>
      have hst : s = t := Std.LawfulEqCmp.eq_of_compare (Option.some.inj horder)
      rw [hst]
      exact hb

theorem sameValue_congr {b c : Json} (h : b.same c = true) (a : Json) : sameValue a b = sameValue a c := by
  have hback : c.same b = true := by rwa [Json.same_comm]
  have hsame : a.same b = a.same c := by
    rw [Bool.eq_iff_iff]
    exact ⟨fun hab => Json.same_trans hab h, fun hac => Json.same_trans hac hback⟩
  rw [sameValue, sameValue, hsame, comparesEqual, comparesEqual, (compareValues_congr h a).2]

/-- What equals a value that a comparison finds is found by it too. -/
theorem Operator.holds_of_sameValue {type : FieldType} {v x : Json} (hx : x ≠ .null)
    (hself : Operator.eq.holds type (some x) x = true) (h : sameValue v x = true) :
    Operator.eq.holds type (some v) x = true := by
  have hset : x.isNull = false := by
    cases x with
    | null => exact absurd rfl hx
    | _ => rfl
  simp only [holds, Option.getD_some, hset, Bool.false_eq_true, if_false] at hself ⊢
  have hequal := comparesEqual_of_sameValue h hself
  cases v with
  | null => cases x <;> cases hequal
  | _ => exact hequal

namespace Record

variable {record : Record} {columns : List String} {values : List Json}

theorem hasValues_same {vs ws : List Json} (h : List.Forall₂ (fun v w => v.same w = true) vs ws) :
    record.hasValues columns vs = record.hasValues columns ws := by
  induction h generalizing columns with
  | nil => rfl
  | @cons v w vs ws hsame _ ih =>
    cases columns with
    | nil => rfl
    | cons c cs =>
      rw [hasValues, hasValues, List.zip_cons_cons, List.zip_cons_cons, List.all_cons, List.all_cons]
      refine congrArg₂ and ?_ ih
      dsimp only
      cases record.get? c with
      | none => rfl
      | some u => exact sameValue_congr hsame u

/-- A row holds the values that its columns have. -/
theorem hasValues_of_values? (h : record.values? columns = some values) :
    record.hasValues columns values = true := by
  rw [hasValues_iff]
  intro e he
  refine ⟨e.2, get?_of_value? ((List.forall₂_iff_zip.1 (mapM_eq_some.1 h)).2 he), ?_⟩
  rw [sameValue, Json.same_refl, Bool.true_or]

/-- A row that holds the values of another one in some columns has equal values in each of them. -/
theorem sameValue_of_hasValues {member : Record} (hvalues : member.values? columns = some values)
    (hholds : record.hasValues columns values = true) {c : String} (hc : c ∈ columns) {w : Json}
    (hw : member.value? c = some w) : ∃ v, record.get? c = some v ∧ sameValue v w = true := by
  rw [← List.map_fst_zip (Nat.le_of_eq (length_values? hvalues).symm)] at hc
  obtain ⟨e, he, rfl⟩ := List.mem_map.1 hc
  cases hw.symm.trans ((List.forall₂_iff_zip.1 (mapM_eq_some.1 hvalues)).2 he)
  exact hasValues_iff.1 hholds e he

/-- Columns that hold what is the same as values are set. -/
theorem exists_values? (hlength : columns.length = values.length) (hvalues : ∀ v ∈ values, v ≠ .null)
    (h : ∀ e ∈ columns.zip values, ∃ v, record.get? e.1 = some v ∧ v.same e.2 = true) :
    ∃ vs, record.values? columns = some vs ∧ List.Forall₂ (fun v w => v.same w = true) vs values := by
  induction columns generalizing values with
  | nil =>
    rw [List.eq_nil_of_length_eq_zero hlength.symm]
    exact ⟨[], rfl, .nil⟩
  | cons c cs ih =>
    cases values with
    | nil => cases hlength
    | cons w ws =>
      rw [List.zip_cons_cons, List.forall_mem_cons] at h
      obtain ⟨⟨v, hv, hsame⟩, hrest⟩ := h
      obtain ⟨vs, hvs, hall⟩ := ih (Nat.succ.inj hlength)
        (fun x hx => hvalues x (List.mem_cons_of_mem w hx)) hrest
      have hset : v ≠ .null := by
        rintro rfl
        cases w with
        | null => exact hvalues .null List.mem_cons_self rfl
        | _ => cases hsame
      refine ⟨v :: vs, ?_, .cons hsame hall⟩
      rw [values?, List.mapM_cons, value?_of_get? hv hset]
      change (cs.mapM record.value?).bind _ = _
      rw [show cs.mapM record.value? = some vs from hvs]
      rfl

/-- Columns that are written hold what is the same as the values. -/
theorem values?_assign (record : Record) (hnodup : columns.Nodup) (hlength : columns.length = values.length)
    (hvalues : ∀ v ∈ values, v ≠ .null) :
    ∃ vs, (record.assign (columns.zip values)).1.values? columns = some vs ∧
      List.Forall₂ (fun v w => v.same w = true) vs values := by
  refine exists_values? hlength hvalues (same_of_assign ?_)
  rwa [List.map_fst_zip (Nat.le_of_eq hlength)]

end Record

/-! ## Members by a foreign key of the entity -/

/-- A row whose foreign key already holds what a link to another row would write. -/
def Relationship.Repeats (rel : Relationship) (record childRow : Record) : Prop :=
  ∃ own referenced vs ws, rel.join = .foreignKey own referenced ∧ record.values? own = some vs ∧
    childRow.values? referenced = some ws ∧ List.Forall₂ (fun v w => v.same w = true) vs ws

theorem Relationship.Repeats.join {rel : Relationship} {record childRow : Record}
    (h : rel.Repeats record childRow) : ∃ own referenced, rel.join = .foreignKey own referenced := by
  obtain ⟨own, referenced, -, -, hjoin, -⟩ := h
  exact ⟨own, referenced, hjoin⟩

namespace Tables

variable {t u : Tables} {s : Schema} {r target : Resource} {rel : Relationship} {i j : Identity}
  {record childRow : Record}

/-- No entity is a member twice. -/
theorem nodup_memberKeys (hs : s.LeadsToOne r target rel) (hkeyed : t.Keyed target) :
    (t.memberKeys s r target record rel).Nodup := by
  have hfiltered : ∀ p : Record → Bool,
      ((((t.rowsOf target.name).filter p).filterMap target.identityOf?).map Identity.key).Nodup := by
    intro p
    rw [List.Nodup, List.pairwise_map, List.pairwise_filterMap]
    refine (hkeyed.pairwise_rowsOf.filter p).imp fun hab i hi j hj => hab i hi j hj
  unfold memberKeys members
  simp only [hs.leads]
  cases hjoin : rel.join with
  | foreignKey own referenced =>
    dsimp only
    cases record.values? own with
    | none => exact .nil
    | some wanted => exact hfiltered _
  | reverse own held =>
    dsimp only
    cases record.values? own with
    | none => exact .nil
    | some wanted => exact hfiltered _
  | association table own other => exact absurd hjoin (hs.columns table own other)

/-- Who holds the identity of an entity is this entity. -/
theorem stores_of_hasValues {referenced : List String} {ws : List Json} {row : Record}
    (hidentity : ∀ c ∈ target.identityColumns, c ∈ referenced) (hpinpoints : t.Pinpoints target j)
    (hchild : t.Stores target j childRow) (hws : childRow.values? referenced = some ws)
    (hrow : row ∈ t.rowsOf target.name) (hholds : row.hasValues referenced ws = true) :
    t.Stores target j row := by
  refine (hpinpoints row hrow).1 (List.all_eq_true.2 fun e he => ?_)
  have hx := (List.forall₂_iff_zip.1 (Resource.identityOf?_eq_some.1 hchild.identity)).2 he
  have hself := List.all_eq_true.1 ((hpinpoints childRow hchild.mem_rowsOf).2 hchild) e he
  rw [Record.get?_of_value? hx] at hself
  obtain ⟨v, hv, hsame⟩ := Record.sameValue_of_hasValues hws hholds
    (hidentity _ (List.mem_map_of_mem (List.of_mem_zip he).1)) hx
  rw [hv]
  exact Operator.holds_of_sameValue (Record.value?_ne_null hx) hself hsame

/-- Members by columns are the rows that hold the wanted values. -/
theorem mem_memberKeys_of_values (hs : s.LeadsToOne r target rel) {own columns : List String}
    (hjoin : rel.join = .foreignKey own columns ∨ rel.join = .reverse own columns) {wanted : List Json}
    (hwanted : record.values? own = some wanted) {key : String} :
    key ∈ t.memberKeys s r target record rel ↔ ∃ row ∈ t.rowsOf target.name,
      row.hasValues columns wanted = true ∧ ∃ k, target.identityOf? row = some k ∧ k.key = key := by
  rw [mem_memberKeys]
  have hmembers : ∀ row, row ∈ t.members s r record rel ↔
      row ∈ t.rowsOf target.name ∧ row.hasValues columns wanted = true := by
    intro row
    rcases hjoin with hjoin | hjoin <;>
      simp only [members, hs.leads, hjoin, hwanted, List.mem_filter]
  simp only [hmembers, and_assoc]

/-- An entity with the identity of another one in its foreign key has this one as its only member. -/
theorem memberKeys_of_repeats (hs : s.LeadsToOne r target rel) {own referenced : List String}
    (hjoin : rel.join = .foreignKey own referenced)
    (hidentity : ∀ c ∈ target.identityColumns, c ∈ referenced) (hkeyed : t.Keyed target)
    (hpinpoints : t.Pinpoints target j) (hchild : t.Stores target j childRow)
    (h : rel.Repeats record childRow) : t.memberKeys s r target record rel = [j.key] := by
  obtain ⟨own', referenced', vs, ws, hjoin', hvs, hws, hsame⟩ := h
  cases hjoin.symm.trans hjoin'
  have hmember : ∀ key, key ∈ t.memberKeys s r target record rel ↔ key = j.key := by
    intro key
    rw [mem_memberKeys_of_values hs (.inl hjoin) hvs]
    constructor
    · rintro ⟨row, hrow, hholds, k, hk, rfl⟩
      rw [Record.hasValues_same hsame] at hholds
      have hstores := stores_of_hasValues hidentity hpinpoints hchild hws hrow hholds
      cases hstores.identity.symm.trans hk
      rfl
    · rintro rfl
      refine ⟨childRow, hchild.mem_rowsOf, ?_, j, hchild.identity, rfl⟩
      rw [Record.hasValues_same hsame, Record.hasValues_of_values? hws]
  have hnodup : (t.memberKeys s r target record rel).Nodup := nodup_memberKeys hs hkeyed
  refine List.perm_singleton.1 ((List.perm_ext_iff_of_nodup hnodup (List.nodup_singleton _)).2 fun key => ?_)
  rw [hmember, List.mem_singleton]

/-! ## Rows that keep their identities -/

/-- The rows of a resource have the same values in its identity columns. -/
def SameIdentities (t u : Tables) (r : Resource) : Prop :=
  ∀ key, Option.Rel (fun new old : Record => ∀ c ∈ r.identityColumns, new.get? c = old.get? c)
    (u.rowAt? r.name key) (t.rowAt? r.name key)

namespace SameIdentities

theorem refl (t : Tables) (r : Resource) : t.SameIdentities t r := by
  intro key
  cases t.rowAt? r.name key with
  | none => exact .none
  | some record => exact .some fun _ _ => rfl

theorem trans {v : Tables} (h : t.SameIdentities u r) (k : u.SameIdentities v r) : t.SameIdentities v r := by
  intro key
  have hrow := h key
  have hrow' := k key
  generalize t.rowAt? r.name key = old at hrow
  generalize u.rowAt? r.name key = mid at hrow hrow'
  generalize v.rowAt? r.name key = new at hrow'
  cases hrow' with
  | none =>
    cases hrow
    exact .none
  | some hlast =>
    cases hrow with
    | some hfirst => exact .some fun c hc => (hlast c hc).trans (hfirst c hc)

theorem symm (h : t.SameIdentities u r) : u.SameIdentities t r := by
  intro k
  have hrow := h k
  generalize u.rowAt? r.name k = new at hrow
  generalize t.rowAt? r.name k = old at hrow
  cases hrow with
  | none => exact .none
  | some hagree => exact .some fun c hc => (hagree c hc).symm

theorem exists_row {old : Record} (h : t.SameIdentities u r) (key : String)
    (hold : t.rowAt? r.name key = some old) :
    ∃ new, u.rowAt? r.name key = some new ∧ ∀ c ∈ r.identityColumns, new.get? c = old.get? c := by
  have hrow := h key
  rw [hold] at hrow
  generalize u.rowAt? r.name key = new at hrow
  cases hrow with
  | some hagree => exact ⟨_, rfl, hagree⟩

theorem keyed (h : t.SameIdentities u r) (hkeyed : t.Keyed r) : u.Keyed r := by
  intro k new i hnew hi
  obtain ⟨old, hold, hagree⟩ := h.symm.exists_row k hnew
  exact hkeyed k old i hold ((r.identityOf?_congr hagree).trans hi)

theorem filedAt (h : t.SameIdentities u r) {key : String} {new : Record}
    (hfiled : ∀ old, t.rowAt? r.name key = some old → r.FiledAt key old)
    (hnew : u.rowAt? r.name key = some new) : r.FiledAt key new := by
  obtain ⟨old, hold, hagree⟩ := h.symm.exists_row key hnew
  obtain ⟨k, hk, hkey⟩ := hfiled old hold
  exact ⟨k, (r.identityOf?_congr fun c hc => (hagree c hc).symm).trans hk, hkey⟩

theorem exists_stores (h : t.SameIdentities u r) (hstores : t.Stores r i record) :
    ∃ new, u.Stores r i new ∧ ∀ c ∈ r.identityColumns, new.get? c = record.get? c := by
  obtain ⟨new, hnew, hagree⟩ := h.exists_row i.key hstores.row
  exact ⟨new, ⟨hnew, (r.identityOf?_congr hagree).trans hstores.identity⟩, hagree⟩

theorem pinpoints (h : t.SameIdentities u r) (hkeyed : t.Keyed r) (hpinpoints : t.Pinpoints r i) :
    u.Pinpoints r i := by
  have hmeets : ∀ old new : Record, (∀ c ∈ r.identityColumns, new.get? c = old.get? c) →
      r.meets i old = true → r.meets i new = true := by
    intro old new hagree hold
    refine List.all_eq_true.2 fun e he => ?_
    rw [hagree _ (List.mem_map_of_mem (List.of_mem_zip he).1)]
    exact List.all_eq_true.1 hold e he
  intro new hnew
  obtain ⟨k, hk⟩ := mem_rowsOf.1 hnew
  obtain ⟨old, hold, hagree⟩ := h.symm.exists_row k hk
  constructor
  · intro hfound
    have hstores := (hpinpoints old (mem_rowsOf.2 ⟨k, hold⟩)).1 (hmeets new old hagree hfound)
    have hkey : i.key = k := hkeyed k old i hold hstores.identity
    refine ⟨?_, (r.identityOf?_congr fun c hc => (hagree c hc).symm).trans hstores.identity⟩
    rw [row?, hkey]
    exact hk
  · intro hstores
    obtain ⟨before, hbefore, hsame⟩ := h.symm.exists_stores hstores
    exact hmeets before new (fun c hc => (hsame c hc).symm) ((hpinpoints before hbefore.mem_rowsOf).2 hbefore)

end SameIdentities

theorem AgreesBut.sameIdentities {name key : String} {columns : List String}
    (h : t.AgreesBut name key columns u) (hapart : r.name = name → ∀ c ∈ r.identityColumns, c ∉ columns) :
    t.SameIdentities u r := by
  intro k
  by_cases hsame : r.name = name ∧ k = key
  · obtain ⟨rfl, rfl⟩ := hsame
    have hrow := h.row
    generalize u.rowAt? r.name k = new at hrow
    generalize t.rowAt? r.name k = old at hrow
    cases hrow with
    | none => exact .none
    | some hagree => exact .some fun c hc => hagree c (hapart rfl c hc)
  · rw [h.others r.name k hsame]
    exact SameIdentities.refl t r k

end Tables

namespace Progress

variable {s : Schema} {p q : Progress} {r target : Resource} {rel : Relationship} {i j : Identity}
  {record childRow : Record}

/-- Detaching without deleting keeps the identities of those that hold the key, unless it is a part of
them. -/
theorem sameIdentities_unlinks (hs : s.LeadsToOne r target rel) {own held : List String}
    (hjoin : rel.join = .reverse own held) (hdetach : rel.cascade = .detach)
    (hapart : ∀ c ∈ target.identityColumns, c ∉ held) {items : List Identity}
    (h : (unlinks r rel i items).foldlM (Progress.apply s) p = .ok q) :
    p.tables.SameIdentities q.tables target := by
  induction items generalizing p with
  | nil =>
    cases h
    exact .refl _ _
  | cons j items ih =>
    obtain ⟨next, hnext, hrest⟩ := Except.bind_eq_ok.1 h
    refine .trans ?_ (ih hrest)
    obtain ⟨old, -, hq, -⟩ := unlink_eq_ok hs hnext
    rcases hq with ⟨-, rfl⟩ | ⟨-, rfl⟩ | ⟨hdelete, -⟩
    · exact .refl _ _
    · simp only [detach, hjoin, hdetach, if_true]
      exact (p.agreesBut_assign target.name j held _).sameIdentities fun _ => hapart
    · rw [hdetach] at hdelete
      cases hdelete

/-- A replacement that deletes nobody keeps the identities of those that hold the key, unless it is a part
of them. -/
theorem sameIdentities_replacement (hs : s.LeadsToOne r target rel) {own held : List String}
    (hjoin : rel.join = .reverse own held) (hdetach : rel.cascade = .detach)
    (hapart : ∀ c ∈ target.identityColumns, c ∉ held) {others : List Identity}
    (h : (replacement r rel i j others).foldlM (Progress.apply s) p = .ok q) :
    p.tables.SameIdentities q.tables target := by
  obtain ⟨between, hunlinks, hlink⟩ := replacement_of_held hjoin h
  obtain ⟨-, -, values, -, -, -, rfl⟩ := link_of_held hs hjoin hlink
  exact (sameIdentities_unlinks hs hjoin hdetach hapart hunlinks).trans
    ((between.agreesBut_assign target.name j held values).sameIdentities fun _ => hapart)

/-- A link by a foreign key of the entity onto identities makes its end the only member. -/
theorem memberKeys_link_own (hs : s.LeadsToOne r target rel) {own referenced : List String}
    (hjoin : rel.join = .foreignKey own referenced) (hnodup : own.Nodup)
    (hidentity : ∀ c ∈ target.identityColumns, c ∈ referenced)
    (hapart : target.name = r.name → ∀ c ∈ target.identityColumns, c ∉ own)
    (hitself : target.name = r.name → j.key = i.key → ∀ c ∈ referenced, c ∉ own)
    (hkeyed : p.tables.Keyed target) (hpinpoints : p.tables.Pinpoints target j)
    (hchild : p.tables.Stores target j childRow)
    (h : p.apply s (.link (membershipOf r rel i j)) = .ok q) :
    ∃ new, q.tables.row? r.name i = some new ∧ q.tables.memberKeys s r target new rel = [j.key] := by
  obtain ⟨record, row, ws, hrecord, hrow, hws, rfl⟩ := link_of_own hs hjoin h
  cases hrow.symm.trans hchild.row
  have hkept := (p.agreesBut_assign r.name i own ws).sameIdentities hapart
  obtain ⟨newChild, hnewChild, -⟩ := hkept.exists_stores hchild
  -- The entity may be linked to itself, but then what is referred to is not written.
  have hsame : newChild.values? referenced = some ws := by
    have hnewRow : (p.assign r.name i own ws).tables.rowAt? target.name j.key = some newChild :=
      hnewChild.row
    have hchildRow : p.tables.rowAt? target.name j.key = some childRow := hchild.row
    rw [rowAt?_assign, hchildRow] at hnewRow
    split at hnewRow
    · rename_i hitselfNow
      cases hnewRow
      rw [Record.values?_congr fun c hc => childRow.get?_assign_of_notMem
        (hitself hitselfNow.1 hitselfNow.2 c hc) ws, hws]
    · cases hnewRow
      exact hws
  have hlength : own.length = ws.length :=
    (hs.declares.hasKey_own hjoin).columns.2.trans (Record.length_values? hws).symm
  obtain ⟨vs, hvs, hputs⟩ := record.values?_assign hnodup hlength
    (Record.ne_null_of_values? hws)
  have hnew : (p.assign r.name i own ws).tables.row? r.name i =
      some (record.assign (own.zip ws)).1 := by
    have hold : p.tables.rowAt? r.name i.key = some record := hrecord
    rw [Tables.row?, rowAt?_assign, if_pos ⟨rfl, rfl⟩, hold]
    rfl
  refine ⟨_, hnew, Tables.memberKeys_of_repeats hs hjoin hidentity (hkept.keyed hkeyed)
    (hkept.pinpoints hkeyed hpinpoints) hnewChild ?_⟩
  exact ⟨own, referenced, vs, ws, hjoin, hvs, hsame, hputs⟩

/-- A link by a foreign key of the other entity makes it a member besides those that were so before. -/
theorem memberKeys_link_held (hs : s.LeadsToOne r target rel) {own held : List String}
    (hjoin : rel.join = .reverse own held) (hnodup : held.Nodup)
    (hitself : target.name = r.name → j.key = i.key → ∀ c ∈ own, c ∉ held)
    (hkeyed : q.tables.Keyed target)
    (hfiled : ∀ row, q.tables.row? target.name j = some row → target.FiledAt j.key row)
    (hrecord : p.tables.row? r.name i = some record)
    (h : p.apply s (.link (membershipOf r rel i j)) = .ok q) :
    ∃ new, q.tables.row? r.name i = some new ∧ j.key ∈ q.tables.memberKeys s r target new rel ∧
      ∀ key ∈ q.tables.memberKeys s r target new rel, key ≠ j.key →
        key ∈ p.tables.memberKeys s r target record rel := by
  obtain ⟨record', childRow, values, hrecord', hchild, hvalues, rfl⟩ := link_of_held hs hjoin h
  cases hrecord.symm.trans hrecord'
  have hold : p.tables.rowAt? r.name i.key = some record := hrecord
  have hchildRow : p.tables.rowAt? target.name j.key = some childRow := hchild
  -- The entity may be its own member, but the columns that are referred to are not written.
  obtain ⟨new, hnew, hnewValues⟩ : ∃ new, (p.assign target.name j held values).tables.row? r.name i =
      some new ∧ new.values? own = some values := by
    by_cases hsame : r.name = target.name ∧ i.key = j.key
    · refine ⟨(record.assign (held.zip values)).1, ?_, ?_⟩
      · rw [Tables.row?, rowAt?_assign, if_pos hsame, hold]
        rfl
      · rw [Record.values?_congr fun c hc => record.get?_assign_of_notMem
          (hitself hsame.1.symm hsame.2.symm c hc) values, hvalues]
    · refine ⟨record, ?_, hvalues⟩
      rw [Tables.row?, rowAt?_assign, if_neg hsame, hold]
  refine ⟨new, hnew, ?_, fun key hkey hne => ?_⟩
  · have hlength : held.length = values.length :=
      (hs.declares.hasKey_held hjoin).columns.2.trans (Record.length_values? hvalues).symm
    have hlinked : (p.assign target.name j held values).tables.row? target.name j =
        some (childRow.assign (held.zip values)).1 := by
      rw [Tables.row?, rowAt?_assign, if_pos ⟨rfl, rfl⟩, hchildRow]
      rfl
    obtain ⟨k, hk, hkey⟩ := hfiled _ hlinked
    rw [Tables.mem_memberKeys_of_values hs (.inr hjoin) hnewValues]
    exact ⟨_, Tables.mem_rowsOf.2 ⟨j.key, hlinked⟩, Record.hasValues_assign hnodup hlength, k, hk, hkey⟩
  · rw [Tables.mem_memberKeys_of_values hs (.inr hjoin) hnewValues] at hkey
    obtain ⟨row, hrow, hholds, k, hk, rfl⟩ := hkey
    obtain ⟨filed, hrowAt⟩ := Tables.mem_rowsOf.1 hrow
    obtain rfl := hkeyed filed row k hrowAt hk
    rw [rowAt?_assign, if_neg fun hsame => hne hsame.2] at hrowAt
    rw [Tables.mem_memberKeys_of_values hs (.inr hjoin) hvalues]
    exact ⟨row, Tables.mem_rowsOf.2 ⟨k.key, hrowAt⟩, hholds, k, hk, rfl⟩

end Progress

end NestedResources
