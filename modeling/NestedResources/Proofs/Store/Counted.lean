import Mathlib.Data.List.Nodup
import NestedResources.Proofs.Store.Edits
import NestedResources.Proofs.Store.Membership
import NestedResources.Proofs.Store.Patch
import NestedResources.Proofs.Store.Refiled

/-!
# Counted writes

A commit tells how many rows and links it changed. Every change of a place of the hashes is counted when
it is made, so the difference between the tables before and after is no longer than the count, and a
commit that counts nothing has left the tables as they were (`Store.diff_within_writes`). The count may be
greater: a row that is written and then dropped counts twice.
-/
namespace NestedResources

/-- A value that is there already is not put in again. -/
theorem Dict.insert_eq_self {α : Type} {d : Dict α} {key : String} {value : α} (h : d.get? key = some value) :
    d.insert key value = d := by
  refine Dict.ext_get? fun other => ?_
  by_cases hother : other = key
  · rw [hother, Dict.get?_insert_self, h]
  · exact Dict.get?_insert_of_ne d hother value

namespace Tables

variable {keys : KeySpace} {t u : Tables} {places : List HashPlace} {name : String}

/-- Hashes can change at the places of rows and of links only. -/
theorem hash_eq_of_rows_links
    (hrows : ∀ resource key, (keys.resource resource, key) ∉ places →
      u.rowAt? resource key = t.rowAt? resource key)
    (hlinks : ∀ table (link : Link), (keys.association table, link.text) ∉ places →
      (link ∈ (u.linksOf table).links ↔ link ∈ (t.linksOf table).links)) :
    ∀ place ∉ places, u.hash keys place = t.hash keys place := by
  intro place hplace
  have hform : ∀ {v : Tables} {d : Json}, v.hash keys place = some d →
      u.hash keys place = t.hash keys place := by
    intro v d hd
    rcases place_cases hd with ⟨resource, key, rfl⟩ | ⟨table, link, rfl⟩
    · rw [hash_resource, hash_resource, hrows resource key hplace]
    · rw [hash_association, hash_association, if_congr (hlinks table link hplace) rfl rfl]
  cases hu : u.hash keys place with
  | some d => exact hu.symm.trans (hform hu)
  | none =>
    cases ht : t.hash keys place with
    | some d => exact hu.symm.trans ((hform ht).trans ht)
    | none => rfl

/-- A difference is no longer than the places at which hashes may have changed. -/
theorem length_diff_le (h : ∀ place ∉ places, u.hash keys place = t.hash keys place) :
    (diff keys t u).length ≤ places.length := by
  have hsubset : (diff keys t u).map HashWrite.place ⊆ places := by
    intro place hplace
    obtain ⟨w, hw, rfl⟩ := List.mem_map.1 hplace
    by_contra hnone
    refine (mem_diff.1 hw).1 ?_
    rw [AgreesAt, h w.place hnone]
    cases t.hash keys w.place with
    | none => exact .none
    | some v => exact .some (Json.same_refl v)
  simpa using (List.subperm_of_subset nodup_diff hsubset).length_le

theorem links_filterLinks (keep : Link → Bool) :
    ((t.filterLinks name keep).linksOf name).links = (t.linksOf name).links.filter keep := by
  unfold filterLinks linksOf
  cases hlinks : t.links.get? name with
  | none =>
    simp only [hlinks]
    rfl
  | some links => simp [LinkTable.filter]

/-- A filter that keeps every link leaves the tables as they are. -/
theorem filterLinks_eq_self {keep : Link → Bool} (h : ∀ link ∈ (t.linksOf name).links, keep link = true) :
    t.filterLinks name keep = t := by
  unfold filterLinks
  cases hlinks : t.links.get? name with
  | none => rfl
  | some links =>
    rw [linksOf, hlinks] at h
    have hkept : links.filter keep = links :=
      LinkTable.ext_mem fun link => List.mem_filter.trans (and_iff_left_of_imp (h link))
    dsimp only
    rw [hkept, Dict.insert_eq_self hlinks]

/-- A link that is there already is not put in again. -/
theorem putLink_eq_self {link : Link} (h : link ∈ (t.linksOf name).links) : t.putLink name link = t := by
  unfold putLink
  have hthere : (t.linksOf name).insert link = t.linksOf name :=
    LinkTable.ext_mem fun other => LinkTable.mem_insert.trans (or_iff_right_of_imp fun he => he ▸ h)
  have hlinks : t.links.get? name = some (t.linksOf name) := by
    rw [linksOf] at h ⊢
    cases hget : t.links.get? name with
    | none =>
      rw [hget] at h
      cases h
    | some links => rfl
  rw [hthere, Dict.insert_eq_self hlinks]

end Tables

namespace Progress

/-- What happened on the way from one state of a plan to a later one is counted: no more places of the
hashes have changed than writes were added, and the tables are the same if none were. -/
structure Accounts (keys : KeySpace) (p q : Progress) : Prop where
  covered : ∃ places : List HashPlace, p.writes + places.length ≤ q.writes ∧
    ∀ place ∉ places, q.tables.hash keys place = p.tables.hash keys place
  idle : q.writes = p.writes → q.tables = p.tables

variable {keys : KeySpace} {p q m : Progress}

namespace Accounts

theorem of_tables_eq (htables : q.tables = p.tables) (hwrites : q.writes = p.writes) : Accounts keys p q :=
  ⟨⟨[], Nat.le_of_eq hwrites.symm, fun place _ => by rw [htables]⟩, fun _ => htables⟩

theorem refl (p : Progress) : Accounts keys p p := of_tables_eq rfl rfl

theorem trans (h : Accounts keys p m) (k : Accounts keys m q) : Accounts keys p q := by
  obtain ⟨first, hfirst, hbefore⟩ := h.covered
  obtain ⟨second, hsecond, hafter⟩ := k.covered
  refine ⟨⟨first ++ second, ?_, fun place hplace => ?_⟩, fun hidle => ?_⟩
  · rw [List.length_append]
    omega
  · obtain ⟨hnot, hnor⟩ := not_or.1 (mt List.mem_append.2 hplace)
    exact (hafter place hnor).trans (hbefore place hnot)
  · exact (k.idle (by omega)).trans (h.idle (by omega))

/-- A change at one place that is counted. -/
theorem of_place (place : HashPlace) (hwrites : q.writes = p.writes + 1)
    (h : ∀ other ∉ [place], q.tables.hash keys other = p.tables.hash keys other) : Accounts keys p q :=
  ⟨⟨[place], Nat.le_of_eq hwrites.symm, h⟩, fun hidle => absurd (hwrites.symm.trans hidle) (Nat.succ_ne_self _)⟩

end Accounts

/-! ## Rows and links -/

theorem accounts_writeRow (p : Progress) (resource key : String) (record : Record) :
    Accounts keys p (p.writeRow resource key record) := by
  refine .of_place (keys.resource resource, key) rfl (Tables.hash_eq_of_rows_links (fun other k hplace => ?_)
    fun _ _ _ => .rfl)
  have hrow : (p.writeRow resource key record).tables.rowAt? other k = p.tables.rowAt? other k := by
    refine (Tables.rowAt?_putRow ..).trans (if_neg ?_)
    rintro ⟨rfl, rfl⟩
    exact hplace List.mem_cons_self
  exact hrow

theorem accounts_assign (p : Progress) (resource : String) (i : Identity) (columns : List String)
    (values : List Json) : Accounts keys p (p.assign resource i columns values) := by
  rcases assign_cases p resource i columns values with hsame | ⟨record, -, hwrites⟩
  · rw [hsame]
    exact .refl p
  · rw [hwrites]
    exact accounts_writeRow ..

theorem accounts_dropLinks (p : Progress) (name column key : String) :
    Accounts keys p (p.dropLinks name column key) := by
  have hlinks : ((p.dropLinks name column key).tables.linksOf name).links =
      (p.tables.linksOf name).links.filter (·.get? column ≠ some key) := Tables.links_filterLinks _
  let dropped := (p.tables.linksOf name).links.filter fun link => !decide (link.get? column ≠ some key)
  have hcount : (p.dropLinks name column key).writes = p.writes + dropped.length := by
    have hboth := List.length_eq_length_filter_add (l := (p.tables.linksOf name).links)
      fun link => decide (link.get? column ≠ some key)
    rw [← hlinks] at hboth
    exact congrArg (p.writes + ·) (Nat.sub_eq_of_eq_add (hboth.trans (Nat.add_comm ..)))
  refine ⟨⟨dropped.map fun link => (keys.association name, link.text), ?_, ?_⟩, fun hidle => ?_⟩
  · exact Nat.le_of_eq (by rw [List.length_map, hcount])
  · refine Tables.hash_eq_of_rows_links (fun _ _ _ => rowAt?_dropLinks ..) fun table link hplace => ?_
    rw [mem_linksOf_dropLinks]
    refine and_iff_left_of_imp fun hlink => ?_
    rintro rfl hnames
    exact hplace (List.mem_map.2 ⟨link, List.mem_filter.2 ⟨hlink, by simpa using hnames⟩, rfl⟩)
  · have hnone : dropped = [] := List.eq_nil_of_length_eq_zero (by omega)
    refine Tables.filterLinks_eq_self fun link hlink => ?_
    simpa using List.filter_eq_nil_iff.1 hnone link hlink

/-! ## Deletions -/

namespace Deletion

theorem accounts_dropRow (d : Deletion) (resource key : String) :
    Accounts keys d.progress (d.dropRow resource key).progress := by
  unfold dropRow step
  dsimp only
  split
  · refine .of_place (keys.resource resource, key) rfl (Tables.hash_eq_of_rows_links
      (fun other k hplace => ?_) fun table link _ => ?_)
    · refine (Tables.rowAt?_dropRow ..).trans (if_neg ?_)
      rintro ⟨rfl, rfl⟩
      exact hplace List.mem_cons_self
    · exact iff_of_eq (congrArg (link ∈ LinkTable.links ·) (Tables.linksOf_dropRow ..))
  · exact .refl _

theorem accounts_foldl {α : Type} {f : Deletion → α → Deletion} {items : List α}
    (h : ∀ a d, Accounts keys d.progress (f d a).progress) (d : Deletion) :
    Accounts keys d.progress (items.foldl f d).progress := by
  induction items generalizing d with
  | nil => exact .refl _
  | cons a items ih => exact (h a d).trans (ih (f d a))

variable {s : Schema} {remove : Resource → Identity → Deletion → Deletion} {r : Resource} {record : Record}
  {key : String}

theorem accounts_releaseMembers (hremove : ∀ r i d, Accounts keys d.progress (remove r i d).progress)
    (rel : Relationship) (d : Deletion) :
    Accounts keys d.progress (releaseMembers s remove r record key d rel).progress := by
  unfold releaseMembers
  split
  · exact .refl _
  · split
    · exact .refl _
    · refine accounts_foldl (fun i d => ?_) d
      split
      · exact hremove ..
      · exact accounts_assign ..
    · exact Accounts.trans (m := (d.step _).progress) (accounts_dropLinks ..)
        (accounts_foldl (fun i d => hremove _ i d) _)

theorem accounts_releaseReferrers (x : Resource × Relationship) (d : Deletion) :
    Accounts keys d.progress (releaseReferrers r record key d x).progress := by
  unfold releaseReferrers
  split
  split
  · split
    · exact .refl _
    · exact accounts_foldl (fun i d => accounts_assign ..) d
  · exact accounts_dropLinks ..
  · exact .refl _

/-- By induction on the fuel: the recursion is into the members that go along. -/
theorem accounts_remove (fuel : Nat) (r : Resource) (i : Identity) (d : Deletion) :
    Accounts keys d.progress (Deletion.remove s fuel r i d).progress := by
  induction fuel generalizing r i d with
  | zero => exact .refl _
  | succ fuel ih =>
    unfold Deletion.remove
    split
    · exact .refl _
    · dsimp only
      split
      · exact .refl _
      · rename_i record hrow
        have hmembers : ∀ d : Deletion, Accounts keys d.progress
            (r.relationships.foldl (releaseMembers s (Deletion.remove s fuel) r record i.key) d).progress :=
          accounts_foldl (accounts_releaseMembers ih)
        have hreferrers : ∀ d : Deletion, Accounts keys d.progress
            ((s.incoming r.name).foldl (releaseReferrers r record i.key) d).progress :=
          accounts_foldl accounts_releaseReferrers
        exact (hmembers { d with reached := (r.name, i.key) :: d.reached }).trans
          ((hreferrers _).trans (accounts_dropRow ..))

end Deletion

variable {s : Schema}

theorem accounts_removeEntity (p : Progress) (r : Resource) (i : Identity) :
    Accounts keys p (p.removeEntity s r i) := Deletion.accounts_remove _ r i ⟨p, []⟩

/-! ## Commands -/

theorem writes_fillIdentity {r : Resource} {fs : List Field} {values record : Record}
    (h : fillIdentity r fs p values = .ok (q, record)) : q.writes = p.writes := by
  induction fs generalizing p values with
  | nil =>
    cases h
    rfl
  | cons f fs ih =>
    unfold fillIdentity at h
    split at h
    · exact ih h
    · split at h
      · cases h
      · split at h
        · exact ih h
        · have hrest := ih h
          exact hrest

theorem accounts_createRow {slot : Nat} {resource : String} {values : Record}
    (h : p.createRow s slot resource values = .ok q) : Accounts keys p q := by
  obtain ⟨r, hr, -⟩ := Except.bind_eq_ok.1 h
  obtain ⟨filled, record, i, -, hfilled, -, -, rfl⟩ := createRow_eq_ok (Schema.require_eq_ok.1 hr) h
  have hstart : Accounts keys p filled :=
    .of_tables_eq (fillIdentity_eq_ok hfilled).1 (writes_fillIdentity hfilled)
  exact (hstart.trans (accounts_writeRow ..)).trans (.of_tables_eq rfl rfl)

theorem accounts_updateRow {resource : String} {target : EntityRef} {values : Record}
    (h : p.updateRow s resource target values = .ok q) : Accounts keys p q := by
  obtain ⟨r, hr, -⟩ := Except.bind_eq_ok.1 h
  obtain ⟨i, record, -, -, rfl | ⟨-, rfl⟩⟩ := updateRow_cases (Schema.require_eq_ok.1 hr) h
  · exact .refl _
  · exact accounts_writeRow ..

theorem accounts_attach {r target : Resource} {rel : Relationship} {parent child : Identity}
    {parentRow childRow : Record} (h : p.attach r target rel parent child parentRow childRow = .ok q) :
    Accounts keys p q := by
  unfold attach at h
  split at h
  · split at h
    · cases h
      exact accounts_assign ..
    · cases h
  · split at h
    · cases h
      exact accounts_assign ..
    · cases h
  · rename_i name own other hjoin
    cases h
    split
    · rename_i hthere
      exact .of_tables_eq (Tables.putLink_eq_self (of_decide_eq_true hthere)) rfl
    · refine .of_place (keys.association name, (linkOf own other parent child).text) rfl
        (Tables.hash_eq_of_rows_links (fun _ _ _ => rfl) fun table link hplace => ?_)
      by_cases htable : table = name
      · subst htable
        refine (Tables.mem_linksOf_putLink ..).trans (or_iff_right ?_)
        rintro rfl
        exact hplace List.mem_cons_self
      · have hlinks : (p.tables.putLink name (linkOf own other parent child)).linksOf table =
            p.tables.linksOf table := Tables.linksOf_putLink_of_ne _ htable _
        exact iff_of_eq (congrArg (link ∈ LinkTable.links ·) hlinks)

theorem accounts_detach {r target : Resource} {rel : Relationship} {parent child : Identity} :
    Accounts keys p (p.detach r target rel parent child) := by
  unfold detach
  split
  · exact accounts_assign ..
  · split
    · exact accounts_assign ..
    · exact .refl _
  · rename_i name own other hjoin
    split
    · refine .of_place (keys.association name, (linkOf own other parent child).text) rfl
        (Tables.hash_eq_of_rows_links (fun _ _ _ => Tables.rowAt?_filterLinks ..) fun table link hplace => ?_)
      refine (Tables.mem_linksOf_filterLinks ..).trans (and_iff_left ?_)
      rintro rfl
      refine decide_eq_true ?_
      rintro rfl
      exact hplace List.mem_cons_self
    · exact .refl _

theorem accounts_apply {c : Command} (h : p.apply s c = .ok q) : Accounts keys p q := by
  cases c with
  | create slot resource values => exact accounts_createRow h
  | update resource target values => exact accounts_updateRow h
  | delete resource target =>
    obtain ⟨r, i, -, -, -, -, rfl⟩ := delete_eq_ok h
    exact accounts_removeEntity ..
  | link change =>
    obtain ⟨r, target, rel, parent, child, parentRow, childRow, -, -, -, hattach⟩ := addMember_eq_ok h
    exact accounts_attach hattach
  | unlink change =>
    obtain ⟨r, target, rel, parent, child, parentRow, -, -, rfl⟩ := dropMember_eq_ok h
    split
    · split
      · exact accounts_detach.trans (accounts_removeEntity ..)
      · exact accounts_detach
    · exact .refl _

theorem accounts_commands {commands : List Command}
    (h : commands.foldlM (Progress.apply s) p = .ok q) : Accounts keys p q := by
  induction commands generalizing p with
  | nil =>
    cases h
    exact .refl _
  | cons c commands ih =>
    rw [List.foldlM_cons] at h
    obtain ⟨next, hnext, h⟩ := Except.bind_eq_ok.1 h
    exact (accounts_apply hnext).trans (ih h)

end Progress

/-- The writes that a commit reports are at least as many as the places at which the tables differ
afterwards, and if it reports none, the tables are what they were. -/
theorem Store.diff_within_writes {s : Schema} {store after : Store} {plan : Plan} {report : Report}
    (h : store.apply s plan = .ok (after, report)) (keys : KeySpace) :
    (Tables.diff keys store.tables after.tables).length ≤ report.writes ∧
      (report.writes = 0 → after.tables = store.tables) := by
  obtain ⟨p, hp, h⟩ := Except.bind_eq_ok.1 h
  split at h
  · cases h
  · cases h
    have haccounts : Progress.Accounts keys { store } p := Progress.accounts_commands hp
    obtain ⟨places, hplaces, hhash⟩ := haccounts.covered
    rw [Nat.zero_add] at hplaces
    exact ⟨Nat.le_trans (Tables.length_diff_le hhash) hplaces, haccounts.idle⟩

namespace Music

/-- Notes where the score was copied from, and deletes that folder: two places differ after three writes. -/
def copyThenDelete : Plan :=
  ⟨[.link ⟨"scores", "source", scoreRef, folderRef 2⟩, .delete "folders" (folderRef 2)]⟩

/-- The score is in no folder that it was copied from. -/
def unlinkSource : Plan := ⟨[.unlink ⟨"scores", "source", scoreRef, folderRef 2⟩]⟩

theorem scores_diff_within_writes :
    (∃ after report, Store.apply scoreSchema ⟨scoreTables, 0⟩ copyThenDelete = .ok (after, report) ∧
      report.writes = 3 ∧ (Tables.diff ⟨"test"⟩ scoreTables after.tables).length ≤ 3) ∧
    ∃ after report, Store.apply scoreSchema ⟨scoreTables, 0⟩ unlinkSource = .ok (after, report) ∧
      after.tables = scoreTables := by
  have hdone : ((Store.apply scoreSchema ⟨scoreTables, 0⟩ copyThenDelete).map (·.2.writes)) = .ok 3 := rfl
  have hidle : ((Store.apply scoreSchema ⟨scoreTables, 0⟩ unlinkSource).map (·.2.writes)) = .ok 0 := rfl
  obtain ⟨⟨after, report⟩, hafter, hwrites⟩ := Except.map_eq_ok.1 hdone
  obtain ⟨⟨same, none⟩, hsame, hnone⟩ := Except.map_eq_ok.1 hidle
  have hwithin := (Store.diff_within_writes hafter ⟨"test"⟩).1
  exact ⟨⟨after, report, hafter, hwrites, hwrites ▸ hwithin⟩, same, none, hsame,
    (Store.diff_within_writes hsame ⟨"test"⟩).2 hnone⟩

end Music

end NestedResources
