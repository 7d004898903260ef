import NestedResources.Proofs.Store.Deletion

/-!
# Tables that fade

Deletions drop rows and links and set columns to null. What is found in tables that faded was there
before: identities, members, what goes with an entity (`Tables.Fades.cascades`), and the rows that refer
to an entity (`Tables.Fades.refers`).
-/
namespace NestedResources

/-- Items that give something for one function give it for any that agrees where the first is defined. -/
theorem mapM_eq_some_of_imp {α β : Type} {f g : α → Option β} (h : ∀ a b, f a = some b → g a = some b)
    {items : List α} {found : List β} (hf : items.mapM f = some found) : items.mapM g = some found := by
  induction items generalizing found with
  | nil => exact hf
  | cons a items ih =>
    rw [List.mapM_cons] at hf ⊢
    obtain ⟨b, hb, hf⟩ := Option.bind_eq_some_iff.1 hf
    obtain ⟨bs, hbs, hf⟩ := Option.bind_eq_some_iff.1 hf
    rw [h a b hb, ih hbs]
    exact hf

/-! ## Rows -/

namespace Record

variable {old new : Record}

theorem Fades.value? (h : Fades old new) {c : String} {v : Json} (hv : new.value? c = some v) :
    old.value? c = some v := by
  rcases h c with heq | hnull
  · rwa [value?_congr heq] at hv
  · rw [Record.value?, hnull] at hv
    cases hv

theorem Fades.values? (h : Fades old new) {columns : List String} {values : List Json}
    (hv : new.values? columns = some values) : old.values? columns = some values :=
  mapM_eq_some_of_imp (fun _ _ => h.value?) hv

theorem Fades.identityOf? (h : Fades old new) {r : Resource} {i : Identity}
    (hi : r.identityOf? new = some i) : r.identityOf? old = some i := by
  obtain ⟨values, hvalues, rfl⟩ := Option.map_eq_some_iff.1 hi
  exact Option.map_eq_some_iff.2 ⟨values, mapM_eq_some_of_imp (fun _ _ => h.value?) hvalues, rfl⟩

end Record

/-! ## Tables -/

namespace Tables

/-- Rows are gone or have columns cleared, and links are gone. -/
structure Fades (t u : Tables) : Prop where
  rows : ∀ name key new, u.rowAt? name key = some new → ∃ old, t.rowAt? name key = some old ∧ old.Fades new
  links : ∀ table, ∀ link ∈ (u.linksOf table).links, link ∈ (t.linksOf table).links

/-- Rows of the holder with this identity refer to an entity of the owner by a foreign key. -/
def Refers (t : Tables) (s : Schema) (k : ForeignKey) (key owned : String) : Prop :=
  ∃ owner row holder i, t.rowAt? k.owner owned = some owner ∧ row ∈ t.rowsOf k.holder ∧
    k.Points row owner ∧ s.resource? k.holder = some holder ∧ holder.identityOf? row = some i ∧ i.key = key

variable {t u v : Tables} {s : Schema}

theorem Fades.refl (t : Tables) : t.Fades t := ⟨fun _ _ new h => ⟨new, h, .refl new⟩, fun _ _ h => h⟩

theorem Fades.trans (h : t.Fades u) (k : u.Fades v) : t.Fades v := by
  refine ⟨fun name key new hnew => ?_, fun table link hlink => h.links table link (k.links table link hlink)⟩
  obtain ⟨mid, hmid, hlast⟩ := k.rows name key new hnew
  obtain ⟨old, hold, hfirst⟩ := h.rows name key mid hmid
  exact ⟨old, hold, hfirst.trans hlast⟩

theorem Fades.mem_rowsOf (h : t.Fades u) {name : String} {new : Record} (hnew : new ∈ u.rowsOf name) :
    ∃ old ∈ t.rowsOf name, old.Fades new := by
  obtain ⟨key, hrow⟩ := Tables.mem_rowsOf.1 hnew
  obtain ⟨old, hold, hfades⟩ := h.rows name key new hrow
  exact ⟨old, Tables.mem_rowsOf.2 ⟨key, hold⟩, hfades⟩

/-- A member was one before. -/
theorem Fades.members (h : t.Fades u) {r : Resource} {rel : Relationship} {old new member : Record}
    (hfades : old.Fades new) (hmember : member ∈ u.members s r new rel) :
    ∃ before ∈ t.members s r old rel, before.Fades member := by
  unfold Tables.members at hmember ⊢
  split at hmember
  · cases hmember
  · rename_i target htarget
    split at hmember
    case h_1 own other hjoin | h_2 own other hjoin =>
      split at hmember
      · cases hmember
      · rename_i wanted hwanted
        obtain ⟨hrow, hholds⟩ := List.mem_filter.1 hmember
        obtain ⟨before, hbefore, hfaded⟩ := h.mem_rowsOf hrow
        rw [hfades.values? hwanted]
        exact ⟨before, List.mem_filter.2 ⟨hbefore, hfaded.hasValues (Record.ne_null_of_values? hwanted) hholds⟩,
          hfaded⟩
    case h_3 table own other hjoin =>
      split at hmember
      · cases hmember
      · rename_i identity hidentity
        obtain ⟨key, hkey, hrow⟩ := List.mem_filterMap.1 hmember
        obtain ⟨before, hbefore, hfaded⟩ := h.rows target.name key member hrow
        rw [hfades.identityOf? hidentity]
        refine ⟨before, List.mem_filterMap.2 ⟨key, ?_, hbefore⟩, hfaded⟩
        simp only [Dict.mem_keys_ofList, List.map_map, List.mem_map, List.mem_filterMap, List.mem_filter]
          at hkey ⊢
        obtain ⟨other, ⟨link, ⟨hlink, hown⟩, hother⟩, hname⟩ := hkey
        exact ⟨other, ⟨link, ⟨h.links table link hlink, hown⟩, hother⟩, hname⟩

theorem Fades.memberKeys (h : t.Fades u) {r target : Resource} {rel : Relationship} {old new : Record}
    (hfades : old.Fades new) {key : String} (hkey : key ∈ u.memberKeys s r target new rel) :
    key ∈ t.memberKeys s r target old rel := by
  obtain ⟨row, hrow, i, hi, rfl⟩ := mem_memberKeys.1 hkey
  obtain ⟨before, hbefore, hfaded⟩ := h.members hfades hrow
  exact mem_memberKeys.2 ⟨before, hbefore, i, hfaded.identityOf? hi, rfl⟩

/-- What goes with an entity went with it before. -/
theorem Fades.cascades (h : t.Fades u) {name key n k : String} (hgoes : u.Cascades s name key n k) :
    t.Cascades s name key n k := by
  induction hgoes with
  | target => exact .target
  | member _ hdeclares hdelete hjoin htarget hrow hmember ih =>
    obtain ⟨old, hold, hfades⟩ := h.rows _ _ _ hrow
    exact .member ih hdeclares hdelete hjoin htarget hold (h.memberKeys hfades hmember)

/-- What refers to a faded row referred to the row. -/
theorem Fades.refers (h : t.Fades u) {k : ForeignKey} {owned : String} {old new row : Record}
    (hold : t.rowAt? k.owner owned = some old) (hfades : old.Fades new) (hrow : row ∈ u.rowsOf k.holder)
    (hpoints : k.Points row new) {holder : Resource} (hholder : s.resource? k.holder = some holder)
    {i : Identity} (hi : holder.identityOf? row = some i) : t.Refers s k i.key owned := by
  obtain ⟨before, hbefore, hfaded⟩ := h.mem_rowsOf hrow
  obtain ⟨wanted, hwanted, hholds⟩ := hpoints.of_fades hfaded
  exact ⟨old, before, holder, i, hold, hbefore, ⟨wanted, hfades.values? hwanted, hholds⟩, hholder,
    hfaded.identityOf? hi, rfl⟩

/-! ## Rows under the keys of their identities -/

/-- Rows that have an identity are filed under its key. -/
def Keyed (t : Tables) (r : Resource) : Prop :=
  ∀ key record i, t.rowAt? r.name key = some record → r.identityOf? record = some i → i.key = key

theorem Filed.keyed {r : Resource} (h : t.Filed s) (hr : s.resource? r.name = some r) : t.Keyed r := by
  intro key record i hrow hi
  obtain ⟨j, hj, hkey⟩ := h r.name key r record hr hrow
  cases hi.symm.trans hj
  exact hkey

theorem Keyed.of_fades {r : Resource} (h : t.Keyed r) (hfades : t.Fades u) : u.Keyed r := by
  intro key new i hnew hi
  obtain ⟨old, hold, hfaded⟩ := hfades.rows r.name key new hnew
  exact h key old i hold (hfaded.identityOf? hi)

/-- No two rows have identities with one key. -/
theorem Keyed.pairwise_rowsOf {r : Resource} (h : t.Keyed r) :
    (t.rowsOf r.name).Pairwise fun a b =>
      ∀ i, r.identityOf? a = some i → ∀ j, r.identityOf? b = some j → i.key ≠ j.key := by
  rw [rowsOf, Dict.values, List.pairwise_map]
  refine (t.table r.name).ordered.imp_of_mem fun {x y} hx hy hlt i hi j hj => ?_
  rw [h x.1 x.2 i (Dict.get?_eq_some_iff.2 hx) hi, h y.1 y.2 j (Dict.get?_eq_some_iff.2 hy) hj]
  intro hsame
  rw [hsame] at hlt
  exact String.lt_irrefl _ hlt

end Tables

namespace Progress

theorem Deletion.Later.fades {d after : Deletion} (h : d.Later after) :
    d.progress.tables.Fades after.progress.tables := ⟨h.rows, h.links⟩

end Progress

end NestedResources
