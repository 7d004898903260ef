import NestedResources.Proofs.Schema.Lookup
import NestedResources.Proofs.Store.Order
import NestedResources.Store.Fetch

/-!
# Columns that reading does not look at

The columns of write-only fields are concealed, if no other field, no identity and no relationship needs
them. Reading commutes with blanking these columns: a fetch from blanked tables gives the blanked rows
(`Tables.Blanks.fetch_eq`), as long as its predicates and sorts keep off the concealed columns.
-/
namespace NestedResources

/-- The columns that a join compares, on the side of the owner and on the side of the target. -/
def Join.columns : Join → List String × List String
  | .foreignKey own other | .reverse own other => (own, other)
  | .association .. => ([], [])

namespace Schema

variable {s : Schema} {r : Resource}

/-- The columns by which the relationships of a resource, and those that lead to it, are joined. -/
def joinColumns (s : Schema) (r : Resource) : List String :=
  r.relationships.flatMap (·.join.columns.1) ++ (s.incoming r.name).flatMap (·.2.join.columns.2)

/-- Whether a column belongs to write-only fields alone, none of them an identity field, and no
relationship is joined by it. -/
def conceals (s : Schema) (r : Resource) (column : String) : Bool :=
  r.fields.any (·.column = column)
    && r.fields.all (fun f => f.column ≠ column || (f.writeOnly && !r.isIdentity f.name))
    && column ∉ s.joinColumns r

theorem conceals_of_readable {f : Field} (hf : f ∈ r.fields) (h : f.writeOnly = false) :
    s.conceals r f.column = false := by
  refine Bool.eq_false_iff.2 fun hc => ?_
  simp only [conceals, Bool.and_eq_true, List.all_eq_true] at hc
  simpa [h] using hc.1.2 f hf

theorem conceals_of_field? {f : Field} {name : String} (hf : r.field? name = some f)
    (h : f.isFilterable = true) : s.conceals r f.column = false := by
  rw [Field.isFilterable, Bool.and_eq_true, Bool.not_eq_true'] at h
  exact conceals_of_readable (List.mem_of_find?_eq_some hf) h.2

theorem conceals_of_identity {f : Field} (hf : f ∈ r.identityFields) : s.conceals r f.column = false := by
  obtain ⟨id, hid, hfield⟩ := List.mem_filterMap.1 hf
  have hname : f.name = id := by simpa using List.find?_some hfield
  refine Bool.eq_false_iff.2 fun hc => ?_
  simp only [conceals, Bool.and_eq_true, List.all_eq_true] at hc
  have hconcealed := hc.1.2 f (List.mem_of_find?_eq_some hfield)
  simp [Resource.isIdentity, hname, hid] at hconcealed

theorem conceals_of_owned {rel : Relationship} {column : String} (hrel : rel ∈ r.relationships)
    (hcolumn : column ∈ rel.join.columns.1) : s.conceals r column = false := by
  have hjoin : column ∈ s.joinColumns r :=
    List.mem_append_left _ (List.mem_flatMap.2 ⟨rel, hrel, hcolumn⟩)
  simp [conceals, hjoin]

theorem conceals_of_reached {target : Resource} {rel : Relationship} {column : String}
    (hr : s.resource? r.name = some r) (hrel : rel ∈ r.relationships) (htarget : s.target? rel = some target)
    (hcolumn : column ∈ rel.join.columns.2) : s.conceals target column = false := by
  have hsource : r ∈ s.resources :=
    List.mem_map.2 ⟨(r.name, r), Dict.get?_eq_some_iff.1 hr, rfl⟩
  have hincoming : (r, rel) ∈ s.incoming target.name := by
    refine List.mem_flatMap.2 ⟨r, hsource, List.mem_map.2 ⟨rel, List.mem_filter.2 ⟨hrel, ?_⟩, rfl⟩⟩
    simpa using (name_of_resource? htarget).symm
  have hjoin : column ∈ s.joinColumns target :=
    List.mem_append_right _ (List.mem_flatMap.2 ⟨(r, rel), hincoming, hcolumn⟩)
  simp [conceals, hjoin]

end Schema

/-! ## Blanked records -/

theorem Entries.get?_filter_keys {α : Type} (keep : String → Bool) (entries : List (String × α))
    (key : String) :
    get? key (entries.filter fun e => keep e.1) = if keep key then get? key entries else none := by
  induction entries with
  | nil => simp
  | cons e rest ih =>
    obtain ⟨k, v⟩ := e
    by_cases hkey : k = key
    · subst hkey
      cases hkeep : keep k <;> simp [hkeep, get?, ih]
    · cases hkeep : keep k <;> simp [hkeep, get?, ih, hkey]

theorem List.mapM_congr {m : Type → Type} [Monad m] [LawfulMonad m] {α β : Type} {f g : α → m β}
    {items : List α} (h : ∀ a ∈ items, f a = g a) : items.mapM f = items.mapM g := by
  induction items with
  | nil => rfl
  | cons a items ih =>
    rw [List.mapM_cons, List.mapM_cons, h a List.mem_cons_self,
      ih fun b hb => h b (List.mem_cons_of_mem a hb)]

theorem Entries.get?_map_values {α β : Type} (f : String → α → β) (entries : List (String × α)) (key : String) :
    get? key (entries.map fun e => (e.1, f e.1 e.2)) = (get? key entries).map (f key) := by
  induction entries with
  | nil => rfl
  | cons e rest ih =>
    rw [List.map_cons, get?, get?]
    split
    · rename_i hkey
      rw [hkey, Option.map_some]
    · exact ih

theorem Dict.get?_map {α β : Type} (f : α → β) (d : Dict α) (key : String) :
    (d.map f).get? key = (d.get? key).map f :=
  Entries.get?_map_values (fun _ => f) d.entries key

namespace Resource

variable {s : Schema} {r : Resource} {record : Record}

/-- A record without its concealed columns. -/
def blank (s : Schema) (r : Resource) (record : Record) : Record :=
  ⟨record.entries.filter fun e => !s.conceals r e.1, record.ordered.filter _⟩

theorem get?_blank (column : String) :
    (r.blank s record).get? column = if s.conceals r column then none else record.get? column := by
  refine (Entries.get?_filter_keys (fun column => !s.conceals r column) record.entries column).trans ?_
  cases s.conceals r column <;> rfl

theorem get?_blank_of_shown {column : String} (h : s.conceals r column = false) :
    (r.blank s record).get? column = record.get? column := by
  rw [get?_blank, h]
  rfl

theorem value?_blank {column : String} (h : s.conceals r column = false) :
    (r.blank s record).value? column = record.value? column := by
  rw [Record.value?, Record.value?, get?_blank_of_shown h]

/-- Records agree when blanked iff they agree in all columns that are not concealed. -/
theorem blank_eq_iff {other : Record} : r.blank s record = r.blank s other ↔
    ∀ column, s.conceals r column = false → record.get? column = other.get? column := by
  constructor
  · intro h column hshown
    rw [← get?_blank_of_shown hshown, h, get?_blank_of_shown hshown]
  · intro h
    ext1 column
    rw [get?_blank, get?_blank]
    cases hc : s.conceals r column with
    | true => rfl
    | false => exact h column hc

theorem identityOf?_blank : r.identityOf? (r.blank s record) = r.identityOf? record := by
  refine congrArg (Option.map Identity.mk) (List.mapM_congr fun f hf => ?_)
  exact value?_blank (Schema.conceals_of_identity hf)

theorem values?_blank {columns : List String} (h : ∀ column ∈ columns, s.conceals r column = false) :
    (r.blank s record).values? columns = record.values? columns :=
  List.mapM_congr fun column hcolumn => value?_blank (h column hcolumn)

theorem hasValues_blank {columns : List String} (h : ∀ column ∈ columns, s.conceals r column = false)
    (wanted : List Json) : (r.blank s record).hasValues columns wanted = record.hasValues columns wanted := by
  rw [Bool.eq_iff_iff, Record.hasValues, Record.hasValues, List.all_eq_true, List.all_eq_true]
  refine forall₂_congr fun ⟨column, value⟩ he => ?_
  dsimp only
  rw [get?_blank_of_shown (h column (List.of_mem_zip he).1)]

/-- Blanked rows are in the order of the rows. -/
theorem compare_blank {sorts : List ColumnSort} (h : ∀ c ∈ sorts, s.conceals r c.column = false)
    (left right : Record) :
    Record.compare r sorts (r.blank s left) (r.blank s right) = Record.compare r sorts left right := by
  have hby : ∀ {column type}, s.conceals r column = false →
      (r.blank s left).compareBy (r.blank s right) column type = left.compareBy right column type := by
    intro column type hshown
    rw [Record.compareBy, Record.compareBy, value?_blank hshown, value?_blank hshown]
  rw [Record.compare, Record.compare, List.map_congr_left fun c hc => congrArg _ (hby (h c hc)),
    List.map_congr_left fun f hf => hby (Schema.conceals_of_identity hf)]

end Resource

/-- Sorting commutes with a map that keeps the order. -/
theorem Sorting.sort_map {α β : Type} {f : α → β} {cmp : α → α → Ordering} {cmp' : β → β → Ordering}
    (h : ∀ a b, cmp' (f a) (f b) = cmp a b) (items : List α) :
    sort cmp' (items.map f) = (sort cmp items).map f := by
  have hinsert : ∀ a sorted,
      insertDescending cmp' (f a) (sorted.map f) = (insertDescending cmp a sorted).map f := by
    intro a sorted
    induction sorted with
    | nil => rfl
    | cons b sorted ih =>
      rw [List.map_cons, insertDescending, insertDescending, h, ih]
      split <;> rfl
  have hfold : ∀ sorted, (items.map f).foldl (fun sorted a => insertDescending cmp' a sorted) (sorted.map f)
      = (items.foldl (fun sorted a => insertDescending cmp a sorted) sorted).map f := by
    induction items with
    | nil => exact fun sorted => rfl
    | cons a items ih =>
      intro sorted
      rw [List.map_cons, List.foldl_cons, List.foldl_cons, hinsert, ih]
  rw [sort, sort, List.map_reverse]
  exact congrArg List.reverse (hfold [])

theorem Window.apply_map {α β : Type} (w : Window) (f : α → β) (items : List α) :
    w.apply (items.map f) = (w.apply items).map f := by
  unfold apply
  split <;> simp

/-! ## Blanked tables -/

/-- Tables with the links of others and with their rows blanked. -/
structure Tables.Blanks (s : Schema) (t v : Tables) : Prop where
  links : ∀ name, v.linksOf name = t.linksOf name
  rows : ∀ name r, s.resource? name = some r → v.table name = (t.table name).map (r.blank s)

namespace Tables.Blanks

variable {s : Schema} {t v : Tables} {r target : Resource} {rel : Relationship}

theorem rowsOf_eq (h : t.Blanks s v) {name : String} (hr : s.resource? name = some r) :
    v.rowsOf name = (t.rowsOf name).map (r.blank s) := by
  rw [rowsOf, rowsOf, h.rows name r hr]
  simp [Dict.values, Dict.map]

theorem rowAt?_eq (h : t.Blanks s v) {name : String} (hr : s.resource? name = some r) (key : String) :
    v.rowAt? name key = (t.rowAt? name key).map (r.blank s) := by
  rw [rowAt?, rowAt?, h.rows name r hr, Dict.get?_map]

/-- The members of a blanked row are the blanked members. -/
theorem members_eq (h : t.Blanks s v) (hr : s.resource? r.name = some r) (hrel : rel ∈ r.relationships)
    (htarget : s.target? rel = some target) (record : Record) :
    v.members s r (r.blank s record) rel = (t.members s r record rel).map (target.blank s) := by
  have htable := Schema.resource?_of_target? htarget
  have hmatch : ∀ own other, rel.join.columns = (own, other) →
      (r.blank s record).values? own = record.values? own ∧
        ∀ wanted, ((v.rowsOf target.name).filter fun (row : Record) => row.hasValues other wanted)
          = ((t.rowsOf target.name).filter fun (row : Record) => row.hasValues other wanted).map (target.blank s) := by
    intro own other hjoin
    have hown : ∀ column ∈ own, s.conceals r column = false := fun column hcolumn =>
      Schema.conceals_of_owned hrel (hjoin ▸ hcolumn)
    have hother : ∀ column ∈ other, s.conceals target column = false := fun column hcolumn =>
      Schema.conceals_of_reached hr hrel htarget (hjoin ▸ hcolumn)
    refine ⟨Resource.values?_blank hown, fun wanted => ?_⟩
    rw [h.rowsOf_eq htable, List.filter_map]
    exact congrArg _ (List.filter_congr fun row _ => Resource.hasValues_blank hother wanted)
  cases hjoin : rel.join with
  | foreignKey own other | reverse own other =>
    obtain ⟨hvalues, hrows⟩ := hmatch own other (by rw [hjoin]; rfl)
    simp only [members, htarget, hjoin, hvalues]
    cases record.values? own with
    | none => rfl
    | some wanted => exact hrows wanted
  | association name own other =>
    simp only [members, htarget, hjoin, Resource.identityOf?_blank, h.links]
    cases r.identityOf? record with
    | none => rfl
    | some identity =>
      dsimp only
      rw [funext (h.rowAt?_eq htable)]
      exact List.map_filterMap.symm

end Tables.Blanks

/-! ## Predicates -/

mutual

/-- A predicate that keeps off the concealed columns, there and behind relationships. -/
def Predicate.KeepsOff (s : Schema) (r : Resource) : Predicate → Prop
  | .and children | .or children | .not children => Predicate.AllKeepOff s r children
  | .compare column _ _ _ => s.conceals r column = false
  | .related relationship target inner => ∀ rel found, s.step? r relationship = some (rel, found) →
      rel.target = target ∧ Predicate.KeepsOff s found inner
  | .memberOf resource _ relationship => ∀ parent rel, s.resource? resource = some parent →
      parent.relationship? relationship = some rel → rel.target = r.name

def Predicate.AllKeepOff (s : Schema) (r : Resource) : List Predicate → Prop
  | [] => True
  | p :: ps => Predicate.KeepsOff s r p ∧ Predicate.AllKeepOff s r ps

end

namespace Predicate

variable {s : Schema} {r : Resource}

theorem allKeepOff_iff {ps : List Predicate} : AllKeepOff s r ps ↔ ∀ p ∈ ps, p.KeepsOff s r := by
  induction ps with
  | nil => simp [AllKeepOff]
  | cons p ps ih => simp [AllKeepOff, ih]

theorem keepsOff_identity (s : Schema) (r : Resource) (i : Identity) : (identity r i).KeepsOff s r := by
  refine allKeepOff_iff.2 fun p hp => ?_
  obtain ⟨⟨f, value⟩, he, rfl⟩ := List.mem_map.1 hp
  exact Schema.conceals_of_identity (List.of_mem_zip he).1

theorem keepsOff_all {ps : List Predicate} (h : ∀ p ∈ ps, p.KeepsOff s r) : (all ps).KeepsOff s r := by
  have hparts : ∀ p ∈ ps.flatMap conjuncts, p.KeepsOff s r := by
    intro part hpart
    obtain ⟨p, hp, hpart⟩ := List.mem_flatMap.1 hpart
    have hkeeps := h p hp
    cases p with
    | and children => exact allKeepOff_iff.1 hkeeps part hpart
    | _ =>
      rw [List.mem_singleton.1 hpart]
      exact hkeeps
  unfold all
  split
  · rename_i only honly
    exact hparts only (honly ▸ List.mem_singleton_self only)
  · exact allKeepOff_iff.2 hparts

theorem keepsOff_conjoin {left right : Option Predicate} (hleft : ∀ p ∈ left, p.KeepsOff s r)
    (hright : ∀ p ∈ right, p.KeepsOff s r) : ∀ p ∈ conjoin left right, p.KeepsOff s r := by
  cases left with
  | none => simpa [conjoin] using hright
  | some left =>
    cases right with
    | none => simpa [conjoin] using hleft
    | some right =>
      rintro p ⟨⟩
      refine keepsOff_all fun p hp => ?_
      rcases List.mem_pair.1 hp with rfl | rfl
      · exact hleft _ rfl
      · exact hright _ rfl

end Predicate

namespace Tables.Blanks

variable {s : Schema} {t v : Tables} {r target : Resource}

theorem isAmong_eq (rows : List Record) (record : Record) :
    Predicate.isAmong r (r.blank s record) (rows.map (r.blank s)) = Predicate.isAmong r record rows := by
  rw [Predicate.isAmong, Predicate.isAmong, Resource.identityOf?_blank]
  cases r.identityOf? record with
  | none => rfl
  | some own => simp [List.any_map, Function.comp_def, Resource.identityOf?_blank]

mutual

/-- What keeps off the concealed columns holds of a blanked row as it does of the row. -/
theorem holds_eq (h : t.Blanks s v) {r : Resource} (hr : s.resource? r.name = some r) (record : Record) :
    ∀ p : Predicate, p.KeepsOff s r → p.holds v s r (r.blank s record) = p.holds t s r record
  | .and children, hp => by
    simp only [Predicate.holds]
    exact holdsAll_eq h hr record children hp
  | .or children, hp => by
    simp only [Predicate.holds]
    exact holdsAny_eq h hr record children hp
  | .not children, hp => by
    simp only [Predicate.holds, holdsAll_eq h hr record children hp]
  | .compare column type operator value, hp => by
    simp only [Predicate.holds]
    rw [Resource.get?_blank_of_shown hp]
  | .related relationship name inner, hp => by
    simp only [Predicate.holds]
    cases hrel : r.relationship? relationship with
    | none => rfl
    | some rel =>
      cases htarget : s.resource? name with
      | none => rfl
      | some found =>
        cases hstep : s.target? rel with
        | none => simp [Tables.members, hstep]
        | some other =>
          obtain ⟨rfl, hinner⟩ := hp rel other (Schema.step?_eq_some.2 ⟨hrel, hstep⟩)
          cases hstep.symm.trans htarget
          dsimp only
          rw [h.members_eq hr (List.mem_of_find?_eq_some hrel) hstep, List.any_map]
          have hfound := Schema.resource?_of_target? hstep
          exact congrArg (List.any _) (funext fun member => holds_eq h hfound member inner hinner)
  | .memberOf resource identity relationship, hp => by
    simp only [Predicate.holds]
    cases hparent : s.resource? resource with
    | none => rfl
    | some parent =>
      obtain rfl := Schema.name_of_resource? hparent
      dsimp only
      rw [row?, row?, h.rowAt?_eq hparent]
      cases hrel : parent.relationship? relationship with
      | none => rfl
      | some rel =>
        cases t.rowAt? parent.name identity.key with
        | none => rfl
        | some row =>
          have htarget : s.target? rel = some r := by rw [Schema.target?, hp parent rel hparent hrel, hr]
          dsimp only [Option.map_some]
          rw [h.members_eq hparent (List.mem_of_find?_eq_some hrel) htarget]
          exact isAmong_eq _ record

theorem holdsAll_eq (h : t.Blanks s v) {r : Resource} (hr : s.resource? r.name = some r) (record : Record) :
    ∀ ps : List Predicate, Predicate.AllKeepOff s r ps →
      Predicate.holdsAll v s r (r.blank s record) ps = Predicate.holdsAll t s r record ps
  | [], _ => rfl
  | p :: ps, hp => by
    rw [Predicate.holdsAll, Predicate.holdsAll, holds_eq h hr record p hp.1,
      holdsAll_eq h hr record ps hp.2]

theorem holdsAny_eq (h : t.Blanks s v) {r : Resource} (hr : s.resource? r.name = some r) (record : Record) :
    ∀ ps : List Predicate, Predicate.AllKeepOff s r ps →
      Predicate.holdsAny v s r (r.blank s record) ps = Predicate.holdsAny t s r record ps
  | [], _ => rfl
  | p :: ps, hp => by
    rw [Predicate.holdsAny, Predicate.holdsAny, holds_eq h hr record p hp.1,
      holdsAny_eq h hr record ps hp.2]

end

theorem passes_eq (h : t.Blanks s v) (hr : s.resource? r.name = some r) {predicate : Option Predicate}
    (hp : ∀ p ∈ predicate, p.KeepsOff s r) (record : Record) :
    v.passes s r predicate (r.blank s record) = t.passes s r predicate record := by
  cases predicate with
  | none => rfl
  | some p => exact h.holds_eq hr record p (hp p rfl)

theorem select_eq (h : t.Blanks s v) (hr : s.resource? r.name = some r) {predicate : Option Predicate}
    (hp : ∀ p ∈ predicate, p.KeepsOff s r) {sorts : List ColumnSort}
    (hsorts : ∀ c ∈ sorts, s.conceals r c.column = false) (candidates : List Record) :
    v.select s r (candidates.map (r.blank s)) predicate sorts
      = (t.select s r candidates predicate sorts).map (r.blank s) := by
  rw [select, select, List.filter_map, Sorting.sort_map (Resource.compare_blank hsorts)]
  exact congrArg (fun keep => (Sorting.sort _ (candidates.filter keep)).map _)
    (funext (h.passes_eq hr hp))

end Tables.Blanks

/-! ## Blanked rows -/

namespace Row

mutual

/-- A row without the concealed columns of its record and of the rows that are embedded. -/
def blank (s : Schema) (r : Resource) : Row → Row
  | mk record related => mk (r.blank s record) (blankRelated s r related)

def blankRelated (s : Schema) (r : Resource) : List (String × Related) → List (String × Related)
  | [] => []
  | (name, members) :: rest => (name, blankUnder s (s.step? r name) members) :: blankRelated s r rest

/-- The rows of a relationship without the concealed columns of its target. -/
def blankUnder (s : Schema) (step : Option (Relationship × Resource)) : Related → Related
  | .absent => .absent
  | .one row => match step with
    | none => .one row
    | some (_, target) => .one (blank s target row)
  | .many rows => match step with
    | none => .many rows
    | some (_, target) => .many (blankAll s target rows)

def blankAll (s : Schema) (r : Resource) : List Row → List Row
  | [] => []
  | row :: rows => blank s r row :: blankAll s r rows

end

variable {s : Schema} {r target : Resource}

theorem blankAll_eq_map (rows : List Row) : blankAll s r rows = rows.map (blank s r) := by
  induction rows with
  | nil => rfl
  | cons row rows ih => rw [blankAll, ih, List.map_cons]

theorem blankRelated_eq_map (related : List (String × Related)) :
    blankRelated s r related = related.map fun e => (e.1, blankUnder s (s.step? r e.1) e.2) := by
  induction related with
  | nil => rfl
  | cons e rest ih => rw [blankRelated, ih, List.map_cons]

@[simp] theorem record_blank (row : Row) : (row.blank s r).record = r.blank s row.record := by
  cases row
  rfl

@[simp] theorem blank_mk_nil (record : Record) : blank s r (mk record []) = mk (r.blank s record) [] := rfl

theorem get?_related_blank (row : Row) (name : String) :
    Entries.get? name (row.blank s r).related
      = (Entries.get? name row.related).map (blankUnder s (s.step? r name)) := by
  obtain ⟨record, related⟩ := row
  change Entries.get? name (blankRelated s r related) = _
  rw [blankRelated_eq_map]
  exact Entries.get?_map_values (fun name => blankUnder s (s.step? r name)) related name

theorem blank_attach (row : Row) (name : String) (members : Related) :
    (row.attach name members).blank s r
      = (row.blank s r).attach name (blankUnder s (s.step? r name) members) := by
  obtain ⟨record, related⟩ := row
  simp only [attach, blank, blankRelated_eq_map, Row.record, Row.related]
  congr 1
  induction related with
  | nil => rfl
  | cons e rest ih =>
    rw [List.map_cons, Entries.insert, Entries.insert]
    split
    · rfl
    · split
      · rfl
      · rw [List.map_cons, ih]

end Row

end NestedResources
