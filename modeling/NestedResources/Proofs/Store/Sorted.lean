import NestedResources.Demo.Music
import NestedResources.Proofs.Store.Coherent
import NestedResources.Store.Fetch

/-!
# Sorted selections

Rows are compared by several columns, missing values first. If the values of each column are coherent, this is
an order, and rows with identities of their own have one ascending arrangement, which is what is selected
(`Tables.select_ascending`). A column of numbers may be incoherent; then rows can precede each other in a circle.
-/
namespace NestedResources

/-! ## Columns -/

theorem compareColumns_swap (type : FieldType) (v w : Option Json) :
    compareColumns type w v = (compareColumns type v w).swap := by
  cases v <;> cases w <;> try rfl
  exact type.order_swap _ _

/-- Missing values come first. -/
theorem orders_compareColumns {type : FieldType} {values : List Json}
    (h : Sorting.Orders type.order (· ∈ values)) :
    Sorting.Orders (compareColumns type) fun o => ∀ v ∈ o, v ∈ values where
  swap v w _ _ := compareColumns_swap type v w
  trans u v w hu hv hw huv hvw := by
    cases v with
    | none =>
      cases u with
      | none => exact hvw
      | some u => exact absurd rfl huv
    | some v =>
      cases w with
      | none => exact absurd rfl hvw
      | some w =>
        cases u with
        | none => exact fun hgt => by cases hgt
        | some u => exact h.trans u v w (hu u rfl) (hv v rfl) (hw w rfl) huv hvw

namespace Record

variable {rows : List Record} {column : String} {type : FieldType} {r : Resource} {sorts : List ColumnSort}

/-- Numbers are such as documents have. -/
def InRange (record : Record) : Prop := ∀ c v, record.value? c = some v → v.InRange

/-- The values in a column. -/
def valuesOf (rows : List Record) (column : String) : List Json := rows.filterMap (·.value? column)

theorem compareBy_swap (a b : Record) (column : String) (type : FieldType) :
    b.compareBy a column type = (a.compareBy b column type).swap :=
  compareColumns_swap type _ _

theorem inRange_of_mem_valuesOf (hrange : ∀ row ∈ rows, row.InRange) : ∀ v ∈ valuesOf rows column, v.InRange := by
  intro v hv
  obtain ⟨row, hrow, hvalue⟩ := List.mem_filterMap.1 hv
  exact hrange row hrow column v hvalue

/-- Rows are ordered by a column exactly if its values are coherent. -/
theorem orders_compareBy_iff (hrange : ∀ row ∈ rows, row.InRange) :
    Sorting.Orders (fun a b : Record => a.compareBy b column type) (· ∈ rows) ↔
      type.Coherent (valuesOf rows column) := by
  rw [← FieldType.orders_iff_coherent (inRange_of_mem_valuesOf hrange)]
  constructor
  · intro h
    refine ⟨fun v w _ _ => type.order_swap v w, fun u v w hu hv hw => ?_⟩
    obtain ⟨a, ha, hau⟩ := List.mem_filterMap.1 hu
    obtain ⟨b, hb, hbv⟩ := List.mem_filterMap.1 hv
    obtain ⟨c, hc, hcw⟩ := List.mem_filterMap.1 hw
    have htrans := h.trans a b c ha hb hc
    simp only [compareBy, hau, hbv, hcw] at htrans
    exact htrans
  · intro h
    refine ((orders_compareColumns h).comap fun row : Record => row.value? column).mono fun row hrow v hv => ?_
    exact List.mem_filterMap.2 ⟨row, hrow, hv⟩

theorem compare_swap (r : Resource) (sorts : List ColumnSort) (a b : Record) :
    compare r sorts b a = (compare r sorts a b).swap := by
  have hsorts : ∀ s ∈ sorts, s.order.apply (b.compareBy a s.column s.type)
      = (s.order.apply (a.compareBy b s.column s.type)).swap := by
    intro s _
    rw [compareBy_swap a b]
    cases s.order <;> rfl
  have hidentity : ∀ f ∈ r.identityFields, b.compareBy a f.column f.type
      = (a.compareBy b f.column f.type).swap := fun f _ => compareBy_swap a b f.column f.type
  unfold compare
  rw [← Sorting.foldr_swap _ _ _ hsorts, ← Sorting.foldr_swap _ _ _ hidentity]
  rfl

end Record

namespace Resource

/-- The columns that rows are compared by. -/
def comparedColumns (r : Resource) (sorts : List ColumnSort) : List (String × FieldType) :=
  sorts.map (fun s => (s.column, s.type)) ++ r.identityFields.map fun f => (f.column, f.type)

/-- Rows whose values can be ordered in each column that they are compared by. -/
def CoherentOn (r : Resource) (sorts : List ColumnSort) (rows : List Record) : Prop :=
  ∀ c ∈ r.comparedColumns sorts, c.2.Coherent (Record.valuesOf rows c.1)

/-- Rows in ascending order. -/
def Ascends (r : Resource) (sorts : List ColumnSort) (rows : List Record) : Prop :=
  rows.Pairwise fun a b => Record.compare r sorts a b ≠ .gt

/-- No two rows have identities that compare equal. -/
def TellsApart (r : Resource) (rows : List Record) : Prop :=
  ∀ a ∈ rows, ∀ b ∈ rows, Record.compare r [] a b = .eq → a = b

end Resource

namespace Record

variable {rows : List Record} {r : Resource} {sorts : List ColumnSort}

/-- Coherent rows are ordered. -/
theorem orders_compare (hrange : ∀ row ∈ rows, row.InRange) (hcoherent : r.CoherentOn sorts rows) :
    Sorting.Orders (compare r sorts) (· ∈ rows) := by
  have hcolumn : ∀ c ∈ r.comparedColumns sorts,
      Sorting.Orders (fun a b : Record => a.compareBy b c.1 c.2) (· ∈ rows) :=
    fun c hc => (orders_compareBy_iff hrange).2 (hcoherent c hc)
  have hties : Sorting.Orders (fun _ _ : Record => Ordering.eq) (· ∈ rows) :=
    ⟨fun _ _ _ _ => rfl, fun _ _ _ _ _ _ h _ => h⟩
  have hidentity := hties.foldr (fun (f : Field) (a b : Record) => a.compareBy b f.column f.type)
    (l := r.identityFields) fun f hf => hcolumn _ (List.mem_append_right _ (List.mem_map_of_mem hf))
  refine hidentity.foldr (fun (s : ColumnSort) (a b : Record) => s.order.apply (a.compareBy b s.column s.type))
    fun s hs => ?_
  have hsort := hcolumn _ (List.mem_append_left _ (List.mem_map_of_mem hs))
  cases s.order with
  | asc => exact hsort
  | desc => exact hsort.reverse

/-- Rows that compare equal have identities that do. -/
theorem compare_identity_of_eq {a b : Record} (h : compare r sorts a b = .eq) : compare r [] a b = .eq :=
  Sorting.eq_of_foldr_eq h

/-- Rows of different identities have one ascending arrangement. -/
theorem eq_of_ascends (h : Sorting.Orders (compare r sorts) (· ∈ rows)) {found other : List Record}
    (hrows : ∀ row ∈ found, row ∈ rows) (happart : r.TellsApart found) (hperm : found.Perm other)
    (hfound : r.Ascends sorts found) (hother : r.Ascends sorts other) : found = other := by
  refine hperm.eq_of_pairwise (fun a b ha hb hab hba => ?_) hfound hother
  have hb := hperm.mem_iff.2 hb
  rw [h.swap a b (hrows a ha) (hrows b hb)] at hba
  cases horder : compare r sorts a b with
  | eq => exact happart a ha b hb (compare_identity_of_eq horder)
  | gt => exact absurd horder hab
  | lt => exact absurd (by rw [horder]; rfl) hba

end Record

namespace Tables

variable {t : Tables} {s : Schema} {r : Resource} {p : Option Predicate} {sorts : List ColumnSort}
  {rows candidates : List Record}

theorem select_perm : (t.select s r candidates p sorts).Perm (candidates.filter (t.passes s r p)) :=
  Sorting.sort_perm _ _

theorem ascends_select (h : Sorting.Orders (Record.compare r sorts) (· ∈ rows))
    (hrows : candidates.filter (t.passes s r p) ⊆ rows) : r.Ascends sorts (t.select s r candidates p sorts) :=
  Sorting.pairwise_sort h fun _ hrow => hrows hrow

/-- Rows are compared alike from both sides, and by one column they are ordered exactly if its values are coherent.
Rows that are coherent in all columns they are compared by are ordered. What is selected of them is ascending, and
if no two of the selected rows are alike in identity it is the only ascending arrangement of these rows, whatever
they were selected from and in which order they were found. -/
theorem select_ascending (r : Resource) (sorts : List ColumnSort) :
    (∀ a b, Record.compare r sorts b a = (Record.compare r sorts a b).swap) ∧
    ∀ rows : List Record, (∀ row ∈ rows, row.InRange) →
      (∀ column type, Sorting.Orders (fun a b : Record => a.compareBy b column type) (· ∈ rows) ↔
        type.Coherent (Record.valuesOf rows column)) ∧
      (r.CoherentOn sorts rows →
        Sorting.Orders (Record.compare r sorts) (· ∈ rows) ∧
        ∀ (t : Tables) (s : Schema) (p : Option Predicate) (candidates : List Record),
          candidates.filter (t.passes s r p) ⊆ rows →
          (t.select s r candidates p sorts).Perm (candidates.filter (t.passes s r p)) ∧
          r.Ascends sorts (t.select s r candidates p sorts) ∧
          (r.TellsApart (candidates.filter (t.passes s r p)) →
            (∀ sorted, sorted.Perm (candidates.filter (t.passes s r p)) → r.Ascends sorts sorted →
              sorted = t.select s r candidates p sorts) ∧
            ∀ (t' : Tables) (s' : Schema) (p' : Option Predicate) (others : List Record),
              (others.filter (t'.passes s' r p')).Perm (candidates.filter (t.passes s r p)) →
              t'.select s' r others p' sorts = t.select s r candidates p sorts)) := by
  refine ⟨Record.compare_swap r sorts, fun rows hrange => ?_⟩
  refine ⟨fun _ _ => Record.orders_compareBy_iff hrange, fun hcoherent => ?_⟩
  have horders := Record.orders_compare hrange hcoherent
  refine ⟨horders, fun t s p candidates hrows => ?_⟩
  have hascends := ascends_select horders hrows
  refine ⟨select_perm, hascends, fun happart => ?_⟩
  have honly : ∀ sorted, sorted.Perm (candidates.filter (t.passes s r p)) → r.Ascends sorts sorted →
      sorted = t.select s r candidates p sorts := by
    intro sorted hperm hsorted
    refine Record.eq_of_ascends horders (fun row hrow => hrows (hperm.mem_iff.1 hrow)) ?_
      (hperm.trans select_perm.symm) hsorted hascends
    exact fun a ha b hb => happart a (hperm.mem_iff.1 ha) b (hperm.mem_iff.1 hb)
  refine ⟨honly, fun t' s' p' others hperm => honly _ (select_perm.trans hperm) ?_⟩
  exact ascends_select horders fun row hrow => hrows (hperm.mem_iff.1 hrow)

end Tables

namespace Music

/-- Gauges in a studio, each with its last reading, of whatever kind. -/
def gauges : Resource where
  name := "gauges"
  identity := ["gauge_id"]
  fields := [key "gauge_id", { field "reading" .number with optional := true }]

def gaugeSchema : Schema where
  table := .ofList [("gauges", gauges)]
  named := by decide +kernel
  faultless := by
    intro e he
    obtain rfl := List.mem_singleton.1 he
    rfl

def gaugeRow (n : Int) (reading : Json) : Record := .ofList [("gauge_id", .int n), ("reading", reading)]

/-- A missing reading, a text, an integer and an equal double, a negative one and a truth value. -/
def mixedGauges : List Record :=
  [gaugeRow 1 .null, gaugeRow 2 (.str "high"), gaugeRow 3 (.int 7), gaugeRow 4 (.num (.float ⟨false, 7 * 2 ^ 50, -50, by decide⟩)),
    gaugeRow 5 (.int (-7)), gaugeRow 6 (.bool true)]

def byReading (order : SortOrder) : List ColumnSort := [⟨"reading", .number, order⟩]

theorem inRange_mixedGauges : ∀ row ∈ mixedGauges, row.InRange := by
  have hall : ∀ row ∈ mixedGauges, ∀ e ∈ row.entries, e.2.InRange := by decide +kernel
  exact fun row hrow c v hv => hall row hrow (c, v) (Entries.mem_of_get? (Record.get?_of_value? hv))

theorem coherentOn_mixedGauges (order : SortOrder) : gauges.CoherentOn (byReading order) mixedGauges := by
  have hcolumns : ∀ c ∈ gauges.comparedColumns (byReading order), c.2 ≠ .dateTime ∧
      ∀ v ∈ Record.valuesOf mixedGauges c.1, v.fitsDouble = true := by
    cases order <;> decide +kernel
  intro c hc
  obtain ⟨htype, hsmall⟩ := hcolumns c hc
  exact FieldType.coherent_of_small (Record.inRange_of_mem_valuesOf inRange_mixedGauges) hsmall
    fun hdate => absurd hdate htype

theorem tellsApart_mixedGauges : gauges.TellsApart mixedGauges := by
  have hall : ∀ i j : Fin mixedGauges.length,
      Record.compare gauges [] (mixedGauges.get i) (mixedGauges.get j) = .eq → i = j := by decide +kernel
  intro a ha b hb heq
  obtain ⟨i, rfl⟩ := List.mem_iff_get.1 ha
  obtain ⟨j, rfl⟩ := List.mem_iff_get.1 hb
  rw [hall i j heq]

/-- Mixed readings are sorted to one list, in whichever order the rows are found. -/
theorem mixedGauges_selected :
    gauges.Ascends (byReading .desc) (Tables.empty.select gaugeSchema gauges mixedGauges none (byReading .desc)) ∧
    Tables.empty.select gaugeSchema gauges mixedGauges.reverse none (byReading .desc)
      = Tables.empty.select gaugeSchema gauges mixedGauges none (byReading .desc) := by
  obtain ⟨-, hsorted⟩ := (Tables.select_ascending gauges (byReading .desc)).2 mixedGauges inRange_mixedGauges
  obtain ⟨-, hselected⟩ := hsorted (coherentOn_mixedGauges .desc)
  have hall : ∀ rows : List Record, rows.filter (Tables.empty.passes gaugeSchema gauges none) = rows :=
    fun rows => List.filter_eq_self.2 fun _ _ => rfl
  obtain ⟨-, hascends, honly⟩ := hselected .empty gaugeSchema none mixedGauges (by rw [hall]; exact List.Subset.refl _)
  refine ⟨hascends, (honly ?_).2 .empty gaugeSchema none mixedGauges.reverse ?_⟩
  · rw [hall]
    exact tellsApart_mixedGauges
  · rw [hall, hall]
    exact List.reverse_perm mixedGauges

/-- Two integers beside `2 ^ 53` and the double between them. -/
def largeGauges : List Record :=
  [gaugeRow 1 (.int (2 ^ 53 + 1)), gaugeRow 2 (.num (.float ⟨false, 2 ^ 52, 1, by decide⟩)), gaugeRow 3 (.int (2 ^ 53))]

/-- The first row comes before the second one, this before the third one, and the third one before the first. -/
theorem largeGauges_circle : ∃ a b c, largeGauges = [a, b, c] ∧
    Record.compare gauges (byReading .asc) a b = .lt ∧ Record.compare gauges (byReading .asc) b c = .lt ∧
    Record.compare gauges (byReading .asc) a c = .gt :=
  ⟨_, _, _, rfl, by decide +kernel⟩

end Music

end NestedResources
