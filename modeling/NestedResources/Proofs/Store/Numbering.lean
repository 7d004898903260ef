import NestedResources.Demo.Music
import NestedResources.Proofs.Store.Creation
import NestedResources.Proofs.Store.Keyed

/-!
# Numbers that the store assigns

A creation that leaves its number open gets the one after the greatest in use. What a plan of creations
assigns depends on the numbers alone (`numbering`): one that is assigned is in use by no row and by no
other creation of the plan, unless the greatest integer of 64 bits is in use already, after which the
numbers start again from the least one (`Store.creations_numbered`).
-/
namespace NestedResources

namespace Int64Range

def least : Int := -0x8000000000000000

def greatest : Int := 0x7fffffffffffffff

end Int64Range

/-- The integers of 64 bits. -/
def InInt64 (n : Int) : Prop := Int64Range.least ≤ n ∧ n ≤ Int64Range.greatest

instance (n : Int) : Decidable (InInt64 n) := inferInstanceAs (Decidable (_ ∧ _))

/-! ## Counting on -/

/-- The number after the greatest in use, 1 if none is; beyond 64 bits it wraps. -/
def nextNumber (used : List Int) : Int := Int.bmod (used.max?.getD 0 + 1) 0x10000000000000000

/-- The numbers that creations get in turn, each the one it asks for or the next one. -/
def numbering : List Int → List (Option Int) → List Int
  | _, [] => []
  | used, wanted :: rest =>
    let n := wanted.getD (nextNumber used)
    n :: numbering (n :: used) rest

/-- Numbers that differ from those in use and from one another. -/
structure Fresh (used assigned : List Int) : Prop where
  nodup : assigned.Nodup
  unused : ∀ n ∈ assigned, n ∉ used

section Counting

variable {used other : List Int} {n : Int}

theorem max?_congr (h : ∀ m, m ∈ used ↔ m ∈ other) : used.max? = other.max? := by
  cases hmax : used.max? with
  | none =>
    rw [List.max?_eq_none_iff] at hmax
    subst hmax
    refine (List.max?_eq_none_iff.2 (List.eq_nil_iff_forall_not_mem.2 fun m hm => ?_)).symm
    exact List.not_mem_nil ((h m).2 hm)
  | some n =>
    rw [List.max?_eq_some_iff] at hmax
    exact (List.max?_eq_some_iff.2 ⟨(h n).1 hmax.1, fun m hm => hmax.2 m ((h m).2 hm)⟩).symm

theorem nextNumber_congr (h : ∀ m, m ∈ used ↔ m ∈ other) : nextNumber used = nextNumber other := by
  rw [nextNumber, nextNumber, max?_congr h]

theorem numbering_congr (h : ∀ m, m ∈ used ↔ m ∈ other) (wanted : List (Option Int)) :
    numbering used wanted = numbering other wanted := by
  induction wanted generalizing used other with
  | nil => rfl
  | cons w rest ih =>
    rw [numbering, numbering, nextNumber_congr h]
    exact congrArg (_ :: ·) (ih fun m => by rw [List.mem_cons, List.mem_cons, h])

/-- What comes later counts on from what was assigned before. -/
theorem numbering_append (used : List Int) (before after : List (Option Int)) :
    numbering used (before ++ after) =
      numbering used before ++ numbering (used ++ numbering used before) after := by
  induction before generalizing used with
  | nil => rw [List.nil_append, numbering, List.nil_append, List.append_nil]
  | cons w rest ih =>
    rw [List.cons_append, numbering, numbering, ih, List.cons_append]
    refine congrArg (fun ns => _ :: (_ ++ ns)) (numbering_congr (fun m => ?_) after)
    simp only [List.mem_append, List.mem_cons]
    tauto

theorem length_numbering (used : List Int) (wanted : List (Option Int)) :
    (numbering used wanted).length = wanted.length := by
  induction wanted generalizing used with
  | nil => rfl
  | cons w rest ih => rw [numbering, List.length_cons, List.length_cons, ih]

/-- Every assigned number belongs to a creation, with what was assigned before it. -/
theorem exists_of_numbering_eq {wanted : List (Option Int)} {before rest : List Int}
    (h : numbering used wanted = before ++ n :: rest) :
    ∃ w, wanted[before.length]? = some w ∧ n = w.getD (nextNumber (used ++ before)) := by
  have hlength : before.length < wanted.length := by
    have hcount := congrArg List.length h
    rw [length_numbering, List.length_append, List.length_cons] at hcount
    omega
  refine ⟨wanted[before.length], List.getElem?_eq_getElem hlength, ?_⟩
  have hsplit : wanted = wanted.take before.length ++ wanted[before.length] :: wanted.drop (before.length + 1) := by
    rw [List.getElem_cons_drop, List.take_append_drop]
  rw [hsplit, numbering_append, numbering] at h
  have hbefore := (List.append_inj h (by
    rw [length_numbering, List.length_take_of_le (Nat.le_of_lt hlength)])).1
  have hhead := (List.cons.inj ((List.append_inj h (by
    rw [length_numbering, List.length_take_of_le (Nat.le_of_lt hlength)])).2)).1
  rw [← hhead, hbefore]

/-- The greatest number in use is in range, or 0. -/
theorem inInt64_max? (h : ∀ m ∈ used, InInt64 m) : InInt64 (used.max?.getD 0) := by
  cases hmax : used.max? with
  | none => exact ⟨by decide, by decide⟩
  | some n => exact h n (List.max?_eq_some_iff.1 hmax).1

theorem le_max? {m : Int} (hm : m ∈ used) : m ≤ used.max?.getD 0 := by
  cases hmax : used.max? with
  | none =>
    rw [List.max?_eq_none_iff] at hmax
    subst hmax
    cases hm
  | some n => exact (List.max?_eq_some_iff.1 hmax).2 m hm

theorem max?_eq_greatest_iff (h : ∀ m ∈ used, InInt64 m) :
    used.max?.getD 0 = Int64Range.greatest ↔ Int64Range.greatest ∈ used := by
  constructor
  · intro hmax
    cases hused : used.max? with
    | none =>
      rw [hused] at hmax
      cases hmax
    | some n =>
      rw [hused] at hmax
      exact hmax ▸ (List.max?_eq_some_iff.1 hused).1
  · intro hmem
    exact le_antisymm (inInt64_max? h).2 (le_max? hmem)

/-- Short of the greatest integer, the next number is one more than the greatest in use, without a wrap,
and is itself not in use. -/
theorem nextNumber_of_room (h : ∀ m ∈ used, InInt64 m) (hroom : Int64Range.greatest ∉ used) :
    nextNumber used = used.max?.getD 0 + 1 ∧ InInt64 (nextNumber used) ∧ nextNumber used ∉ used := by
  obtain ⟨hlow, hhigh⟩ := inInt64_max? h
  have hlt : used.max?.getD 0 < Int64Range.greatest :=
    lt_of_le_of_ne hhigh fun heq => hroom ((max?_eq_greatest_iff h).1 heq)
  unfold Int64Range.least at hlow
  unfold Int64Range.greatest at hlt
  have hnext : nextNumber used = used.max?.getD 0 + 1 := by
    refine Int.bmod_eq_of_le ?_ ?_ <;> omega
  refine ⟨hnext, ?_, fun hused => ?_⟩
  · rw [hnext]
    constructor
    · unfold Int64Range.least
      omega
    · unfold Int64Range.greatest
      omega
  · have hle := le_max? hused
    omega

/-- After the greatest integer comes the least one. -/
theorem nextNumber_of_full (h : ∀ m ∈ used, InInt64 m) (hfull : Int64Range.greatest ∈ used) :
    nextNumber used = Int64Range.least := by
  rw [nextNumber, (max?_eq_greatest_iff h).2 hfull]
  decide

theorem inInt64_nextNumber (h : ∀ m ∈ used, InInt64 m) : InInt64 (nextNumber used) := by
  by_cases hfull : Int64Range.greatest ∈ used
  · rw [nextNumber_of_full h hfull]
    decide
  · exact (nextNumber_of_room h hfull).2.1

/-- Numbers in range lead to numbers in range. -/
theorem inInt64_of_mem_numbering {wanted : List (Option Int)} (h : ∀ m ∈ used, InInt64 m)
    (hwanted : ∀ m, some m ∈ wanted → InInt64 m) : ∀ n ∈ numbering used wanted, InInt64 n := by
  induction wanted generalizing used with
  | nil => exact fun n hn => by cases hn
  | cons w rest ih =>
    have hfirst : InInt64 (w.getD (nextNumber used)) := by
      cases w with
      | none => exact inInt64_nextNumber h
      | some m => exact hwanted m List.mem_cons_self
    rw [numbering, List.forall_mem_cons]
    refine ⟨hfirst, ih ?_ fun m hm => hwanted m (List.mem_cons_of_mem w hm)⟩
    rw [List.forall_mem_cons]
    exact ⟨hfirst, h⟩

theorem Fresh.cons {m : Int} {rest : List Int} (hm : m ∉ used) (h : Fresh (m :: used) rest) :
    Fresh used (m :: rest) where
  nodup := List.nodup_cons.2 ⟨fun hmem => h.unused m hmem List.mem_cons_self, h.nodup⟩
  unused := by
    rw [List.forall_mem_cons]
    exact ⟨hm, fun n hn hused => h.unused n hn (List.mem_cons_of_mem m hused)⟩

end Counting

/-! ## Rows with numbers -/

/-- The identity of an entity that has a number. -/
def Identity.ofNumber (n : Int) : Identity := ⟨[.int n]⟩

theorem Identity.ofNumber_key_inj {m n : Int} : (ofNumber m).key = (ofNumber n).key ↔ m = n :=
  ⟨Int.repr_inj.1, fun h => h ▸ rfl⟩

/-- A resource whose identity is one integer, which the store assigns where it is left open. -/
structure Resource.Counts (r : Resource) (f : Field) : Prop where
  identity : r.identityFields = [f]
  integer : f.type = .integer
  generated : f.generated = true

/-- The number in the column of a field. -/
def Field.number? (f : Field) (values : Record) : Option Int := (values.value? f.column).bind Json.int64?

/-- Whether the column of a field is empty or holds an integer of 64 bits. -/
def Field.Numbers (f : Field) (values : Record) : Prop :=
  ∀ v, values.value? f.column = some v → ∃ n, InInt64 n ∧ v = .int n

/-- The numbers of the rows of a resource. -/
def Tables.numbers (t : Tables) (r : Resource) (f : Field) : List Int :=
  (t.rowsOf r.name).filterMap fun record => (record.get? f.column).bind Json.int64?

/-- Every row of a resource is filed under its number. -/
def Tables.Numbered (t : Tables) (r : Resource) (f : Field) : Prop :=
  ∀ key record, t.rowAt? r.name key = some record →
    ∃ n, InInt64 n ∧ record.value? f.column = some (.int n) ∧ (Identity.ofNumber n).key = key

theorem Json.int64?_int {n : Int} (h : InInt64 n) : (Json.int n).int64? = some n := by
  refine if_pos ⟨h.1, ?_⟩
  have hhigh := h.2
  unfold Int64Range.greatest at hhigh
  omega

namespace Tables

variable {t : Tables} {r : Resource} {f : Field} {n : Int} {record : Record}

/-- A number is in use if and only if its key is. -/
theorem Numbered.mem_numbers_iff (h : t.Numbered r f) :
    n ∈ t.numbers r f ↔ (t.row? r.name (Identity.ofNumber n)).isSome = true := by
  rw [numbers, List.mem_filterMap]
  constructor
  · rintro ⟨record, hrecord, hn⟩
    obtain ⟨key, hrow⟩ := mem_rowsOf.1 hrecord
    obtain ⟨m, hm, hvalue, rfl⟩ := h key record hrow
    rw [Record.get?_of_value? hvalue, Option.bind_some, Json.int64?_int hm] at hn
    cases hn
    exact Option.isSome_of_eq_some hrow
  · intro hrow
    obtain ⟨record, hrow⟩ := Option.isSome_iff_exists.1 hrow
    obtain ⟨m, hm, hvalue, hkey⟩ := h _ record hrow
    obtain rfl := Identity.ofNumber_key_inj.1 hkey
    refine ⟨record, mem_rowsOf.2 ⟨_, hrow⟩, ?_⟩
    rw [Record.get?_of_value? hvalue, Option.bind_some, Json.int64?_int hm]

theorem Numbered.inInt64 (h : t.Numbered r f) : ∀ m ∈ t.numbers r f, InInt64 m := by
  intro m hm
  obtain ⟨record, hrow⟩ := Option.isSome_iff_exists.1 (h.mem_numbers_iff.1 hm)
  obtain ⟨k, hk, -, hkey⟩ := h _ record hrow
  exact Identity.ofNumber_key_inj.1 hkey ▸ hk

theorem Numbered.putRow (h : t.Numbered r f) (hn : InInt64 n) (hvalue : record.value? f.column = some (.int n)) :
    (t.putRow r.name (Identity.ofNumber n).key record).Numbered r f := by
  intro key row hrow
  rw [rowAt?_putRow] at hrow
  split at hrow
  · rename_i hsame
    cases hrow
    exact ⟨n, hn, hvalue, hsame.2.symm⟩
  · exact h key row hrow

/-- A new row adds its number. -/
theorem Numbered.mem_numbers_putRow (h : t.Numbered r f) (hn : InInt64 n)
    (hvalue : record.value? f.column = some (.int n)) (m : Int) :
    m ∈ (t.putRow r.name (Identity.ofNumber n).key record).numbers r f ↔ m = n ∨ m ∈ t.numbers r f := by
  rw [(h.putRow hn hvalue).mem_numbers_iff, h.mem_numbers_iff, row?, row?, rowAt?_putRow]
  simp only [Identity.ofNumber_key_inj, true_and]
  by_cases hm : m = n <;> simp [hm]

end Tables

namespace Progress

variable {schema : Schema} {r : Resource} {f : Field} {p : Progress} {values : Record}

/-- What comes of a creation of an entity with a number: it is refused if the number is in use, and
otherwise files a row under it. -/
theorem createRow_numbered (hr : schema.resource? r.name = some r) (hc : r.Counts f)
    (hrows : p.tables.Numbered r f) (hvalues : f.Numbers values) {n : Int}
    (hn : n = (f.number? values).getD (nextNumber (p.tables.numbers r f))) :
    InInt64 n ∧ ((n ∈ p.tables.numbers r f ∧ p.createRow schema p.created.length r.name values =
        .error (.conflict (.alreadyExists r.name (Identity.ofNumber n).key))) ∨
      (n ∉ p.tables.numbers r f ∧ ∃ q, p.createRow schema p.created.length r.name values = .ok q ∧
        q.created = p.created ++ [Identity.ofNumber n] ∧ q.tables.Numbered r f ∧
        ∀ m, m ∈ q.tables.numbers r f ↔ m = n ∨ m ∈ p.tables.numbers r f)) := by
  -- Either way the row is filed with `n` in the column, and nothing else of the plan is touched.
  have hfilled : ∃ record, fillIdentity r r.identityFields p values = .ok (p, record) ∧
      record.value? f.column = some (.int n) ∧ InInt64 n := by
    rw [hc.identity]
    cases hvalue : values.value? f.column with
    | some v =>
      obtain ⟨m, hm, rfl⟩ := hvalues v hvalue
      rw [Field.number?, hvalue, Option.bind_some, Json.int64?_int hm, Option.getD_some] at hn
      subst hn
      exact ⟨values, by rw [fillIdentity, hvalue, if_pos Option.isSome_some, fillIdentity], hvalue, hm⟩
    | none =>
      rw [Field.number?, hvalue, Option.bind_none, Option.getD_none] at hn
      refine ⟨values.insert f.column (.int n), ?_, ?_, hn ▸ inInt64_nextNumber hrows.inInt64⟩
      · rw [fillIdentity, hvalue, if_neg (by simp), if_neg (by simp [hc.generated]), if_pos hc.integer,
          fillIdentity, hn]
        rfl
      · exact Record.value?_of_get? (Dict.get?_insert_self ..) (fun h => by cases h)
  obtain ⟨record, hfilled, hvalue, hrange⟩ := hfilled
  have hidentity : r.identityOf? record = some (Identity.ofNumber n) := by
    rw [Resource.identityOf?_eq_some, hc.identity]
    exact .cons hvalue .nil
  refine ⟨hrange, ?_⟩
  rw [hrows.mem_numbers_iff]
  unfold createRow
  rw [Schema.require_eq_ok.2 hr]
  dsimp only [bind, Except.bind]
  rw [if_neg (not_not.2 rfl), hfilled]
  dsimp only
  rw [hidentity]
  dsimp only
  cases htaken : (p.tables.row? r.name (Identity.ofNumber n)).isSome with
  | true => exact .inl ⟨rfl, if_pos rfl⟩
  | false =>
    refine .inr ⟨Bool.false_ne_true, _, if_neg Bool.false_ne_true, rfl, ?_, ?_⟩
    · exact hrows.putRow hrange hvalue
    · exact hrows.mem_numbers_putRow hrange hvalue

end Progress

/-! ## Plans of creations -/

/-- The commands that create entities of one resource, in the slots from a given one on. -/
def Command.creations (resource : String) : Nat → List Record → List Command
  | _, [] => []
  | slot, values :: rest => .create slot resource values :: creations resource (slot + 1) rest

/-- The plan that creates entities of one resource. -/
def Plan.ofCreations (resource : String) (records : List Record) : Plan :=
  records.foldl (fun plan values => (plan.create resource values).1) .empty

theorem Plan.pending_push_create (plan : Plan) (resource : String) (values : Record) :
    (plan.create resource values).1.pending = plan.pending + 1 := by
  simp [create, push, pending]

theorem Plan.commands_ofCreations (resource : String) (records : List Record) :
    (ofCreations resource records).commands = Command.creations resource 0 records := by
  have hgrows : ∀ (records : List Record) (plan : Plan),
      (records.foldl (fun plan values => (plan.create resource values).1) plan).commands =
        plan.commands ++ Command.creations resource plan.pending records := by
    intro records
    induction records with
    | nil => exact fun plan => (List.append_nil _).symm
    | cons values rest ih =>
      intro plan
      rw [List.foldl_cons, ih, pending_push_create, Command.creations]
      simp [create, push]
  exact hgrows records .empty

namespace Progress

variable {schema : Schema} {r : Resource} {f : Field}

/-- What comes of a run of creations: either each gets the number that is its turn, and all are fresh, or
the run ends at the first number that is in use. -/
theorem run_creations_cases (hr : schema.resource? r.name = some r) (hc : r.Counts f) {records : List Record}
    (hvalues : ∀ values ∈ records, f.Numbers values) {p : Progress} (hrows : p.tables.Numbered r f)
    {used : List Int} (hused : ∀ m, m ∈ used ↔ m ∈ p.tables.numbers r f) {assigned : List Int}
    (hassigned : assigned = numbering used (records.map f.number?)) :
    (Fresh used assigned ∧ ∃ q,
      (Command.creations r.name p.created.length records).foldlM (apply schema) p = .ok q ∧
        q.created = p.created ++ assigned.map Identity.ofNumber) ∨
    ∃ before n after, assigned = before ++ n :: after ∧ n ∈ used ++ before ∧
      (Command.creations r.name p.created.length records).foldlM (apply schema) p =
        .error (.conflict (.alreadyExists r.name (Identity.ofNumber n).key)) := by
  induction records generalizing p used assigned with
  | nil =>
    subst hassigned
    exact .inl ⟨⟨List.nodup_nil, fun n hn => by cases hn⟩, p, rfl, (List.append_nil _).symm⟩
  | cons values rest ih =>
    rw [List.map_cons, numbering] at hassigned
    generalize hn : (f.number? values).getD (nextNumber used) = n at hassigned
    rw [nextNumber_congr hused] at hn
    obtain ⟨hrange, hcases⟩ := createRow_numbered hr hc hrows (hvalues values List.mem_cons_self) hn.symm
    rw [Command.creations, List.foldlM_cons, apply]
    rcases hcases with ⟨htaken, herror⟩ | ⟨hfree, q, hok, hcreated, hqrows, hqnumbers⟩
    · rw [herror]
      exact .inr ⟨[], n, _, hassigned, List.mem_append_left _ ((hused n).2 htaken), rfl⟩
    · have hslot : q.created.length = p.created.length + 1 := by
        rw [hcreated, List.length_append, List.length_singleton]
      rw [hok]
      dsimp only [bind, Except.bind]
      rw [← hslot]
      rcases ih (fun v hv => hvalues v (List.mem_cons_of_mem values hv)) hqrows
        (fun m => by rw [List.mem_cons, hused, hqnumbers]) rfl with
        ⟨hfresh, last, hrun, hlast⟩ | ⟨before, m, after, hsplit, hm, herror⟩
      · refine .inl ⟨hassigned ▸ hfresh.cons fun h => hfree ((hused n).1 h), last, hrun, ?_⟩
        rw [hlast, hcreated, hassigned, List.map_cons, List.append_assoc, List.singleton_append]
      · refine .inr ⟨n :: before, m, after, ?_, ?_, herror⟩
        · rw [hassigned, hsplit, List.cons_append]
        · simp only [List.mem_append, List.mem_cons] at hm ⊢
          tauto

end Progress

/-- What a plan of creations assigns to entities with numbers. A creation that leaves its number open gets
the one after the greatest of those that stand by then, which is in range and none of them, as long as the
greatest integer of 64 bits is none of them; after that it gets the least one. The plan is refused as a
whole if a number that is asked for, or that starts again from the least one, is in use; else the entities
are created under these numbers, which are all fresh, or a required column is missing at the end. -/
theorem Store.creations_numbered {schema : Schema} {r : Resource} {f : Field} {s : Store}
    {records : List Record} {wanted : List (Option Int)} {used assigned : List Int}
    (hr : schema.resource? r.name = some r) (hc : r.Counts f) (hrows : s.tables.Numbered r f)
    (hvalues : ∀ values ∈ records, f.Numbers values) (hwanted : wanted = records.map f.number?)
    (hused : used = s.tables.numbers r f) (hassigned : assigned = numbering used wanted) :
    (∀ before after, wanted = before ++ none :: after →
      ∃ standing n rest, standing = used ++ numbering used before ∧
        assigned = numbering used before ++ n :: rest ∧ InInt64 n ∧
        (Int64Range.greatest ∉ standing → n = standing.max?.getD 0 + 1 ∧ n ∉ standing) ∧
        (Int64Range.greatest ∈ standing → n = Int64Range.least)) ∧
    ((Fresh used assigned ∧ ((∃ after report, s.apply schema (.ofCreations r.name records) = .ok (after, report) ∧
          report.created = assigned.map Identity.ofNumber) ∨
        ∃ name key column, s.apply schema (.ofCreations r.name records) =
          .error (.conflict (.columnEmpty name key column)))) ∨
      ∃ before n rest, assigned = before ++ n :: rest ∧ n ∈ used ++ before ∧
        (wanted[before.length]? = some (some n) ∨ Int64Range.greatest ∈ used ++ before) ∧
        s.apply schema (.ofCreations r.name records) =
          .error (.conflict (.alreadyExists r.name (Identity.ofNumber n).key))) := by
  have hrange : ∀ m ∈ used, InInt64 m := hused ▸ hrows.inInt64
  have hasked : ∀ m, some m ∈ wanted → InInt64 m := by
    intro m hm
    rw [hwanted] at hm
    obtain ⟨values, hmem, hnumber⟩ := List.mem_map.1 hm
    obtain ⟨v, hv, hnumber⟩ := Option.bind_eq_some_iff.1 hnumber
    obtain ⟨k, hk, rfl⟩ := hvalues values hmem v hv
    rw [Json.int64?_int hk] at hnumber
    cases hnumber
    exact hk
  have hopen : ∀ before after, wanted = before ++ none :: after →
      ∃ rest, assigned = numbering used before ++ nextNumber (used ++ numbering used before) :: rest := by
    intro before after hsplit
    rw [hassigned, hsplit, numbering_append, numbering, Option.getD_none]
    exact ⟨_, rfl⟩
  have hstanding : ∀ before after, wanted = before ++ none :: after →
      ∀ m ∈ used ++ numbering used before, InInt64 m := by
    intro before after hsplit m hm
    refine (List.mem_append.1 hm).elim (hrange m) (inInt64_of_mem_numbering hrange (fun k hk => ?_) m)
    exact hasked k (hsplit ▸ List.mem_append_left _ hk)
  refine ⟨fun before after hsplit => ?_, ?_⟩
  · obtain ⟨rest, hrest⟩ := hopen before after hsplit
    have hbounds := hstanding before after hsplit
    exact ⟨_, _, rest, rfl, hrest, inInt64_nextNumber hbounds,
      fun hroom => ⟨(nextNumber_of_room hbounds hroom).1, (nextNumber_of_room hbounds hroom).2.2⟩,
      nextNumber_of_full hbounds⟩
  · unfold Store.apply
    rw [Plan.commands_ofCreations]
    have hstart : ∀ m, m ∈ used ↔ m ∈ Tables.numbers (Progress.tables { store := s }) r f := fun m => hused ▸ Iff.rfl
    rcases Progress.run_creations_cases (p := { store := s }) hr hc hvalues hrows hstart (hwanted ▸ hassigned) with
      ⟨hfresh, q, hrun, hcreated⟩ | ⟨before, n, rest, hsplit, hn, herror⟩
    · refine .inl ⟨hfresh, ?_⟩
      rw [show List.foldlM _ _ (Command.creations r.name 0 records) = _ from hrun]
      dsimp only [bind, Except.bind]
      cases hempty : q.emptyColumn? schema with
      | none => exact .inl ⟨_, _, rfl, hcreated⟩
      | some fault =>
        obtain ⟨name, key, column, rfl⟩ := Progress.emptyColumn?_eq_some hempty
        exact .inr ⟨name, key, column, rfl⟩
    · refine .inr ⟨before, n, rest, hsplit, hn, ?_, ?_⟩
      · obtain ⟨w, hw, hnumber⟩ := exists_of_numbering_eq (hassigned ▸ hsplit)
        cases w with
        | some m => exact .inl (hw.trans (congrArg (some ∘ some) hnumber.symm))
        | none =>
          rw [Option.getD_none] at hnumber
          subst hnumber
          refine .inr (by_contra fun hroom => (nextNumber_of_room ?_ hroom).2.2 hn)
          intro m hm
          refine (List.mem_append.1 hm).elim (hrange m) fun hm => ?_
          refine inInt64_of_mem_numbering hrange hasked m ?_
          rw [← hassigned, hsplit]
          exact List.mem_append_left _ hm
      · rw [show List.foldlM _ _ (Command.creations r.name 0 records) = _ from herror]
        rfl

namespace Music

/-- Record labels, which the store numbers. -/
def recordLabels : Resource where
  name := "labels"
  identity := ["label_id"]
  fields := [key "label_id", { field "name" .string with optional := true }]

def labelSchema : Schema where
  table := .ofList [("labels", recordLabels)]
  named := by decide +kernel
  faultless := by decide +kernel

def labelRecord (n : Int) : Record := .ofList [("label_id", .int n)]

/-- A store with labels of these numbers. -/
def labelled (ns : List Int) : Store where
  tables := ns.foldl (fun t n => t.putRow "labels" (keyOf n) (labelRecord n)) .empty

theorem recordLabels_counts : recordLabels.Counts (key "label_id") := ⟨rfl, rfl, rfl⟩

theorem numbered_labelled (ns : List Int) (h : ∀ n ∈ ns, InInt64 n) :
    (labelled ns).tables.Numbered recordLabels (key "label_id") := by
  have hgrows : ∀ (ns : List Int) (t : Tables), (∀ n ∈ ns, InInt64 n) → t.Numbered recordLabels (key "label_id") →
      (ns.foldl (fun t n => t.putRow "labels" (keyOf n) (labelRecord n)) t).Numbered recordLabels (key "label_id") := by
    intro ns
    induction ns with
    | nil => exact fun t _ ht => ht
    | cons n rest ih =>
      intro t hrange ht
      rw [List.forall_mem_cons] at hrange
      exact ih _ hrange.2 (ht.putRow hrange.1 rfl)
  exact hgrows ns .empty h fun key record hrow => by cases hrow

/-- Three new labels, the second of which asks for number 3. -/
def newLabels : List Record := [.empty, labelRecord 3, .empty]

theorem numbers_newLabels : ∀ values ∈ newLabels, (key "label_id").Numbers values := by
  intro values hvalues v hv
  rcases List.mem_cons.1 hvalues with rfl | hvalues
  · cases hv
  · rcases List.mem_cons.1 hvalues with rfl | hvalues
    · exact ⟨3, by decide, (Option.some.inj hv).symm⟩
    · rw [List.mem_singleton.1 hvalues] at hv
      cases hv

/-- The new labels that ask for no number count on from those that stand. -/
theorem newLabels_numbered :
    ((labelled [7, -2]).tables.Numbered recordLabels (key "label_id") ∧
      ∀ values ∈ newLabels, (key "label_id").Numbers values) ∧
    ∃ after report, (labelled [7, -2]).apply labelSchema (.ofCreations "labels" newLabels) = .ok (after, report) ∧
      report.created = [8, 3, 9].map Identity.ofNumber := by
  have hrows := numbered_labelled [7, -2] (by decide)
  refine ⟨⟨hrows, numbers_newLabels⟩, ?_⟩
  have hok : ((labelled [7, -2]).apply labelSchema (.ofCreations "labels" newLabels)).isOk = true := by
    decide +kernel
  obtain ⟨-, ⟨-, hdone | ⟨name, key, column, herror⟩⟩ | ⟨before, n, rest, -, -, -, herror⟩⟩ :=
    @Store.creations_numbered labelSchema recordLabels (key "label_id") (labelled [7, -2]) newLabels
      [none, some 3, none] ((labelled [7, -2]).tables.numbers recordLabels (key "label_id")) [8, 3, 9]
      (by decide +kernel) recordLabels_counts hrows numbers_newLabels (by decide +kernel) rfl (by decide +kernel)
  · exact hdone
  · rw [show Store.apply _ _ (.ofCreations "labels" newLabels) = _ from herror] at hok
    cases hok
  · rw [show Store.apply _ _ (.ofCreations "labels" newLabels) = _ from herror] at hok
    cases hok

/-- Beside a label with the greatest number, the second of two new labels is refused for the number that
the first one was assigned. -/
theorem labels_run_out :
    (labelled [Int64Range.greatest]).tables.Numbered recordLabels (key "label_id") ∧
      ((labelled [Int64Range.greatest]).apply labelSchema (.ofCreations "labels" [.empty, .empty])).map
          (fun done => done.2.writes) =
        .error (.conflict (.alreadyExists "labels" "-9223372036854775808")) :=
  ⟨numbered_labelled _ (by decide), by decide +kernel⟩

end Music

end NestedResources
