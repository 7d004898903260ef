import NestedResources.Proofs.Store.Deletion

/-!
# Letting go of the members of a row and of what refers to it

Before a row is dropped its relationships let go of their members: members are deleted with the row
or have their foreign key cleared, and links are dropped. Then everything that refers to the row has
its foreign key cleared. Both keep a deletion sound, and afterwards nothing is left that refers to
the row but what is reached.
-/
namespace NestedResources

/-- A foreign key has columns, as many as it references. -/
theorem Schema.HasKey.columns {s : Schema} {k : ForeignKey} (h : s.HasKey k) :
    k.columns ≠ [] ∧ k.columns.length = k.referenced.length := by
  obtain ⟨r, rel, ⟨hr, hrel⟩, hk⟩ := h
  obtain ⟨target, htarget, -, -⟩ := exists_target ⟨hr, hrel⟩
  have hjoin := joinFault?_eq_none hr hrel htarget
  unfold Relationship.foreignKey? at hk
  unfold Resource.joinFault? at hjoin
  split at hk
  · rename_i own referenced hj
    cases hk
    simp only [hj] at hjoin
    split at hjoin
    · cases hjoin
    · rename_i hcolumns
      exact ⟨fun he => hcolumns (.inl he), Decidable.not_not.1 fun he => hcolumns (.inr he)⟩
  · rename_i own held hj
    cases hk
    simp only [hj] at hjoin
    split at hjoin
    · cases hjoin
    · rename_i hcolumns
      have hlength : own.length = held.length := Decidable.not_not.1 fun he => hcolumns (.inr he)
      refine ⟨fun he => hcolumns (.inl ?_), hlength.symm⟩
      have hheld : held = [] := he
      rw [hheld] at hlength
      exact List.length_eq_zero_iff.1 hlength
  · cases hk

/-- A row whose foreign key is null points at nothing. -/
theorem ForeignKey.not_points_of_null {s : Schema} {k : ForeignKey} (hk : s.HasKey k)
    {row owner : Record} (hnull : ∀ c ∈ k.columns, row.get? c = some .null) : ¬k.Points row owner := by
  rintro ⟨wanted, hwanted, hholds⟩
  obtain ⟨hne, hlength⟩ := hk.columns
  have hwide : wanted.length = k.referenced.length := Record.length_values? hwanted
  obtain ⟨c, cs, hc⟩ := List.exists_cons_of_ne_nil hne
  obtain ⟨w, ws, rfl⟩ := List.exists_cons_of_ne_nil (l := wanted) fun he => by
    rw [he, ← hlength, hc] at hwide
    cases hwide
  obtain ⟨v, hv, hsame⟩ := Record.hasValues_iff.1 hholds (c, w) (by simp [hc])
  cases hv.symm.trans (hnull c (by simp [hc]))
  rw [Record.sameValue_null (Record.ne_null_of_values? hwanted w List.mem_cons_self)] at hsame
  cases hsame

namespace Progress.Deletion

variable {s : Schema} {t : Tables} {name key : String}
  {busy : List (String × String × Relationship)}

/-! ## Stretches of a deletion -/

/-- A stretch of a deletion that keeps it sound and is done with all that it has reached. -/
structure Settled (t : Tables) (s : Schema) (name key : String)
    (busy : List (String × String × Relationship)) (d after : Deletion) : Prop where
  later : Later d after
  sound : Sound t s name key busy after
  done : ∀ e ∈ after.reached, e ∈ d.reached ∨ Done t s after e

theorem Settled.refl {d : Deletion} (h : Sound t s name key busy d) : Settled t s name key busy d d :=
  ⟨.refl d, h, fun _ he => .inl he⟩

theorem Settled.trans {a b c : Deletion} (h : Settled t s name key busy a b)
    (k : Settled t s name key busy b c) : Settled t s name key busy a c := by
  refine ⟨h.later.trans k.later, k.sound, fun e he => ?_⟩
  rcases k.done e he with hb | hdone
  · exact (h.done e hb).imp id fun hdone => hdone.later k.later
  · exact .inr hdone

/-- What every step leaves true of its item is true of all items in the end. -/
theorem foldl_settled {α : Type} {f : Deletion → α → Deletion} {P : α → Deletion → Prop}
    {start : Deletion} (hlater : ∀ a d after, Later d after → P a d → P a after) {items : List α}
    (hstep : ∀ a ∈ items, ∀ d, Later start d → Sound t s name key busy d →
      Settled t s name key busy d (f d a) ∧ P a (f d a)) {d : Deletion} (hd : Later start d)
    (hsound : Sound t s name key busy d) :
    Settled t s name key busy d (items.foldl f d) ∧ ∀ a ∈ items, P a (items.foldl f d) := by
  induction items generalizing d with
  | nil => exact ⟨.refl hsound, fun a ha => by cases ha⟩
  | cons a items ih =>
    obtain ⟨hfirst, hpa⟩ := hstep a List.mem_cons_self d hd hsound
    obtain ⟨hrest, hall⟩ := ih (fun b hb => hstep b (List.mem_cons_of_mem a hb))
      (hd.trans hfirst.later) hfirst.sound
    refine ⟨hfirst.trans hrest, fun b hb => ?_⟩
    rcases List.mem_cons.1 hb with rfl | hb
    · exact hlater b _ _ hrest.later hpa
    · exact hall b hb

/-! ## An entity that is being deleted -/

/-- An entity that is being deleted: it is reached, and its row at hand has the identity it had. -/
structure Deleting (t : Tables) (s : Schema) (name key : String) (start : Deletion) (r : Resource)
    (owner : String) (record current : Record) : Prop where
  resource : s.resource? r.name = some r
  row : t.rowAt? r.name owner = some record
  cascades : t.Cascades s name key r.name owner
  reached : (r.name, owner) ∈ start.reached
  identity : ∀ c ∈ r.identityColumns, current.get? c = record.get? c

namespace Deleting

variable {start : Deletion} {r : Resource} {owner : String} {record current : Record}
  {rel : Relationship}

/-- What is referenced is part of the identity, so it is still at hand. -/
theorem values?_eq (e : Deleting t s name key start r owner record current) (hs : s.Referential)
    {k : ForeignKey} (hk : s.HasKey k) (howner : k.owner = r.name) :
    current.values? k.referenced = record.values? k.referenced :=
  Record.values?_congr fun c hc =>
    e.identity c (hs.references k hk r (howner ▸ e.resource) c hc)

theorem points_iff (e : Deleting t s name key start r owner record current) (hs : s.Referential)
    {k : ForeignKey} (hk : s.HasKey k) (howner : k.owner = r.name) {row : Record} :
    k.Points row current ↔ k.Points row record := by
  unfold ForeignKey.Points
  rw [e.values?_eq hs hk howner]

theorem later (e : Deleting t s name key start r owner record current) {after : Deletion}
    (h : Later start after) : Deleting t s name key after r owner record current :=
  { e with reached := h.reached _ e.reached }

/-- The entity is the one filed under its key. -/
theorem exists_identity (e : Deleting t s name key start r owner record current) (ht : t.Filed s) :
    ∃ i, r.identityOf? current = some i ∧ r.identityOf? record = some i ∧ i.key = owner := by
  obtain ⟨i, hi, hkey⟩ := ht _ _ r record e.resource e.row
  exact ⟨i, (r.identityOf?_congr e.identity).trans hi, hi, hkey⟩

/-- Members depend on the identity of the row only. -/
theorem members_eq (e : Deleting t s name key start r owner record current) (hs : s.Referential)
    (hrel : rel ∈ r.relationships) (hjoin : rel.join.isForeignKey = false) (u : Tables) :
    u.members s r current rel = u.members s r record rel := by
  unfold Tables.members
  split
  · rfl
  · cases hj : rel.join with
    | foreignKey own referenced =>
      rw [hj] at hjoin
      cases hjoin
    | reverse own held =>
      have hk : s.HasKey ⟨rel.target, held, r.name, own⟩ := Schema.Declares.hasKey_held ⟨e.resource, hrel⟩ hj
      simp only [e.values?_eq hs hk rfl]
    | association table own other => simp only [r.identityOf?_congr e.identity]

end Deleting

/-! ## Members -/

/-- No entity becomes a member while others are deleted. -/
theorem Sound.mem_memberKeys {d : Deletion} (h : Sound t s name key busy d) (hs : s.Referential)
    (ht : t.Filed s) {r target : Resource} {record : Record} {rel : Relationship} {i : Identity}
    (hidentity : r.identityOf? record = some i) (hjoin : rel.join.isForeignKey = false)
    (htarget : s.target? rel = some target) {member : String}
    (hmember : member ∈ d.progress.tables.memberKeys s r target record rel) :
    member ∈ t.memberKeys s r target record rel := by
  cases hj : rel.join with
  | foreignKey own referenced =>
    rw [hj] at hjoin
    cases hjoin
  | reverse own held =>
    obtain ⟨row, hrow, hpoints⟩ :=
      (Tables.mem_memberKeys_of_reverse (h.filed hs ht) htarget hj).1 hmember
    obtain ⟨old, hold, hcleared⟩ := h.rows _ _ row hrow
    exact (Tables.mem_memberKeys_of_reverse ht htarget hj).2
      ⟨old, hold, hpoints.of_fades hcleared.fades⟩
  | association table own other =>
    obtain ⟨⟨row, hrow⟩, link, hlink, hown, hother⟩ :=
      (Tables.mem_memberKeys_of_association (h.filed hs ht) htarget hj hidentity).1 hmember
    obtain ⟨old, hold, -⟩ := h.rows _ _ row hrow
    exact (Tables.mem_memberKeys_of_association ht htarget hj hidentity).2
      ⟨⟨old, hold⟩, link, h.links table link hlink, hown, hother⟩

/-- A way to delete entities that keeps a deletion sound and reaches the entity. -/
def Removes (t : Tables) (s : Schema) (name key : String) (start : Deletion)
    (remove : Resource → Identity → Deletion → Deletion) : Prop :=
  ∀ busy d target i, Later start d → Sound t s name key busy d →
    s.resource? target.name = some target → t.Cascades s name key target.name i.key →
      Settled t s name key busy d (remove target i d) ∧
        (target.name, i.key) ∈ (remove target i d).reached

/-- A relationship is through with if its members are reached, the links of the row are gone, and
what still points at the row is reached. -/
structure Released (t : Tables) (s : Schema) (r : Resource) (owner : String) (record : Record)
    (rel : Relationship) (d : Deletion) : Prop where
  members : ∀ target, TakesAlong s r target rel → ∀ member ∈ t.memberKeys s r target record rel,
    (target.name, member) ∈ d.reached
  unlinked : ∀ table own other, rel.join = .association table own other →
    ∀ link ∈ (d.progress.tables.linksOf table).links, link.get? own ≠ some owner
  unreferred : ∀ own held, rel.join = .reverse own held → ∀ key row,
    d.progress.tables.rowAt? rel.target key = some row →
      ForeignKey.Points ⟨rel.target, held, r.name, own⟩ row record → (rel.target, key) ∈ d.reached

theorem Released.later {r : Resource} {owner : String} {record : Record} {rel : Relationship}
    {d after : Deletion} (h : Released t s r owner record rel d) (hlater : Later d after) :
    Released t s r owner record rel after := by
  refine ⟨fun target htakes member hmember => hlater.reached _ (h.members target htakes member hmember),
    fun table own other hjoin link hlink =>
      h.unlinked table own other hjoin link (hlater.links table link hlink),
    fun own held hjoin key row hnew hpoints => ?_⟩
  obtain ⟨old, hold, hfades⟩ := hlater.rows _ _ row hnew
  exact hlater.reached _ (h.unreferred own held hjoin key old hold (hpoints.of_fades hfades))

section Release

variable {start : Deletion} {r target : Resource} {owner : String} {record current : Record}
  {rel : Relationship} (hs : s.Referential) (ht : t.Filed s)
  (e : Deleting t s name key start r owner record current)
include hs ht e

/-- Deleting the members that a relationship had at some point of the deletion. -/
theorem removeMembers_settled {remove : Resource → Identity → Deletion → Deletion}
    (hremove : Removes t s name key start remove) (htakes : TakesAlong s r target rel)
    {d₀ d : Deletion} {busy₀ : List (String × String × Relationship)}
    (h₀ : Sound t s name key busy₀ d₀) (hd : Later start d) (h : Sound t s name key busy d) :
    Settled t s name key busy d
        ((d₀.memberIdentities s r target current rel).foldl (fun d member => remove target member d) d) ∧
      ∀ member ∈ d₀.progress.tables.memberKeys s r target record rel, (target.name, member) ∈
        ((d₀.memberIdentities s r target current rel).foldl
          (fun d member => remove target member d) d).reached := by
  have hname : target.name = rel.target := Schema.name_of_resource? htakes.target
  have hresource : s.resource? target.name = some target := hname ▸ htakes.target
  have hsame : d₀.memberIdentities s r target current rel = d₀.memberIdentities s r target record rel := by
    rw [memberIdentities, memberIdentities, e.members_eq hs htakes.declares.2 htakes.join]
  obtain ⟨i, -, hi, -⟩ := e.exists_identity ht
  have hcascades : ∀ m ∈ d₀.memberIdentities s r target record rel,
      t.Cascades s name key target.name m.key := fun m hm =>
    .member e.cascades htakes.declares htakes.delete htakes.join htakes.target e.row
      (h₀.mem_memberKeys hs ht hi htakes.join htakes.target (List.mem_map_of_mem hm))
  obtain ⟨hsettled, hreached⟩ := foldl_settled (P := fun (m : Identity) d => (target.name, m.key) ∈ d.reached)
    (fun m d after hlater hm => hlater.reached _ hm)
    (fun m hm d hd h => hremove busy d target m hd h hresource (hcascades m hm)) hd h
  rw [hsame]
  refine ⟨hsettled, fun member hmember => ?_⟩
  obtain ⟨m, hm, rfl⟩ := List.mem_map.1 hmember
  exact hreached m hm

/-- Clearing a foreign key in rows that point at the row. -/
theorem clearAll_settled {k : ForeignKey} (hk : s.HasKey k) (howner : k.owner = r.name)
    {items : List Identity}
    (hitems : ∀ i ∈ items, ∃ old, t.rowAt? k.holder i.key = some old ∧ k.Points old record)
    (hsafe : ∀ i ∈ items, (k.holder, i.key) ∈ start.reached ∨ ∀ r' target rel' own held,
      TakesAlong s r' target rel' → rel'.join = .reverse own held → target.name = k.holder →
        ∀ c ∈ held, c ∉ k.columns)
    {d : Deletion} (hd : Later start d) (h : Sound t s name key busy d) :
    Settled t s name key busy d
        (items.foldl (fun d i => d.step (·.clear k.holder i k.columns)) d) ∧
      ∀ i ∈ items, ∀ row, (items.foldl (fun d i => d.step (·.clear k.holder i k.columns))
          d).progress.tables.rowAt? k.holder i.key = some row → ¬k.Points row record := by
  refine foldl_settled (P := fun (i : Identity) d => ∀ row,
    d.progress.tables.rowAt? k.holder i.key = some row → ¬k.Points row record)
    (fun i d after hlater hi row hrow hpoints => ?_) (fun i hi d hd h => ?_) hd h
  · obtain ⟨old, hold, hfades⟩ := hlater.rows _ _ row hrow
    exact hi old hold (hpoints.of_fades hfades)
  · obtain ⟨old, hold, hpoints⟩ := hitems i hi
    have hcleared : Sound t s name key busy (d.step (·.clear k.holder i k.columns)) :=
      h.clear hs ht hk (howner ▸ hd.reached _ e.reached) (howner ▸ e.row) hold hpoints
        ((hsafe i hi).imp (hd.reached _) id)
    refine ⟨⟨later_clear d _ i _, hcleared, fun e he => .inl he⟩, fun row hrow => ?_⟩
    rw [step, rowAt?_clear, if_pos ⟨rfl, rfl⟩] at hrow
    obtain ⟨before, -, rfl⟩ := Option.map_eq_some_iff.1 hrow
    refine ForeignKey.not_points_of_null hk fun c hc => ?_
    rw [Record.get?_cleared, if_pos hc]

/-- Clearing the foreign key of the members of a relationship that detaches them. -/
theorem clearMembers_settled (hrel : rel ∈ r.relationships) (hdetach : rel.cascade = .detach)
    (htarget : s.target? rel = some target) {own held : List String}
    (hjoin : rel.join = .reverse own held) {d : Deletion} (hd : Later start d)
    (h : Sound t s name key busy d) :
    Settled t s name key busy d ((d.memberIdentities s r target current rel).foldl
        (fun d member => d.step (·.clear target.name member held)) d) ∧
      ∀ m ∈ d.memberIdentities s r target current rel, ∀ row,
        ((d.memberIdentities s r target current rel).foldl
            (fun d member => d.step (·.clear target.name member held)) d).progress.tables.rowAt?
          rel.target m.key = some row →
            ¬ForeignKey.Points ⟨rel.target, held, r.name, own⟩ row record := by
  have hname : target.name = rel.target := Schema.name_of_resource? htarget
  have hdeclares : s.Declares r rel := ⟨e.resource, hrel⟩
  have hk : s.HasKey ⟨rel.target, held, r.name, own⟩ := hdeclares.hasKey_held hjoin
  rw [hname]
  refine clearAll_settled hs ht e hk rfl (fun m hm => ?_) (fun m hm => .inr ?_) hd h
  · obtain ⟨row, hrow, hpoints⟩ := (Tables.mem_memberKeys_of_reverse (h.filed hs ht) htarget hjoin).1
      (List.mem_map_of_mem hm)
    obtain ⟨old, hold, hcleared⟩ := h.rows _ _ row hrow
    exact ⟨old, hname ▸ hold, (e.points_iff hs hk rfl).1 (hpoints.of_fades hcleared.fades)⟩
  -- No other relationship uses the columns of this one, and this one only detaches.
  · intro r' target' rel' own' held' htakes hjoin' htarget' c hc' hc
    obtain rfl := hs.eq_of_held hdeclares htakes.declares hjoin hjoin'
      ((Schema.name_of_resource? htakes.target).symm.trans htarget') hc hc'
    cases hdetach.symm.trans htakes.delete

/-- Dropping the links of a row in the association table of one of its relationships. -/
theorem dropMemberLinks_sound (hrel : rel ∈ r.relationships) {table own other : String}
    (hjoin : rel.join = .association table own other) {d : Deletion} (hd : Later start d)
    (h : Sound t s name key busy d) :
    Sound t s name key ((r.name, owner, rel) :: busy) (d.step (·.dropLinks table own owner)) := by
  have hdeclares : s.Declares r rel := ⟨e.resource, hrel⟩
  have hreached : (r.name, owner) ∈ d.reached := hd.reached _ e.reached
  refine (h.start hreached).dropLinks hs ht hreached
    (fun link hlink => ⟨r, rel, own, other, hdeclares, hjoin, .inl ⟨rfl, hlink⟩⟩) ?_
  intro r' target' rel' owner' record' own' other' htakes hjoin' _ member _ link hown hother hgone
  rcases hs.same_links hdeclares htakes.declares hjoin hjoin' with
    ⟨rfl, rfl, rfl, rfl⟩ | ⟨-, htarget', rfl, rfl⟩
  · cases hgone.symm.trans hown
    exact .inr List.mem_cons_self
  · cases hgone.symm.trans hother
    rw [Schema.name_of_resource? htakes.target, htarget']
    exact .inl hreached

/-- Deleting the members that a relationship has before others go reaches all that it ever had. A
member is one until then, unless it is reached: the relationship is not being dealt with yet. -/
theorem removeMembers_reaches {remove : Resource → Identity → Deletion → Deletion}
    (hremove : Removes t s name key start remove) (htakes : TakesAlong s r target rel)
    {d₀ d : Deletion} {busy₀ : List (String × String × Relationship)}
    (hfresh : (r.name, owner, rel) ∉ busy₀) (h₀ : Sound t s name key busy₀ d₀) (hlater : Later d₀ d)
    (hd : Later start d) (h : Sound t s name key busy d) :
    ∀ target', TakesAlong s r target' rel → ∀ member ∈ t.memberKeys s r target' record rel,
      (target'.name, member) ∈ ((d₀.memberIdentities s r target current rel).foldl
        (fun d member => remove target member d) d).reached := by
  intro target' htakes' member hmember
  cases htakes.target.symm.trans htakes'.target
  obtain ⟨hsettled, hreached⟩ := removeMembers_settled hs ht e hremove htakes h₀ hd h
  rcases h₀.members r target rel owner record htakes e.row member hmember with hm | hm | hm
  · exact hreached member hm
  · exact hsettled.later.reached _ (hlater.reached _ hm)
  · exact absurd hm hfresh

/-- A relationship that finds its members by their foreign key deletes them, or has it cleared. -/
theorem releaseHeld_settled {remove : Resource → Identity → Deletion → Deletion}
    (hremove : Removes t s name key start remove) (hrel : rel ∈ r.relationships)
    (hfresh : (r.name, owner, rel) ∉ busy) {own held : List String}
    (hjoin : rel.join = .reverse own held) {d : Deletion} (hd : Later start d)
    (h : Sound t s name key busy d) :
    Settled t s name key busy d (releaseMembers s remove r current owner d rel) ∧
      Released t s r owner record rel (releaseMembers s remove r current owner d rel) := by
  have hdeclares : s.Declares r rel := ⟨e.resource, hrel⟩
  obtain ⟨target, htarget, hname, -⟩ := Schema.exists_target hdeclares
  have hk : s.HasKey ⟨rel.target, held, r.name, own⟩ := hdeclares.hasKey_held hjoin
  have hnolinks : ∀ {after : Deletion}, ∀ table own' other, rel.join = .association table own' other →
      ∀ link ∈ (after.progress.tables.linksOf table).links, link.get? own' ≠ some owner :=
    fun table own' other hjoin' => by cases hjoin.symm.trans hjoin'
  cases hcascade : rel.cascade with
  | delete =>
    have htakes : TakesAlong s r target rel := ⟨hdeclares, hcascade, by rw [hjoin]; rfl, htarget⟩
    simp only [releaseMembers, htarget, hjoin, hcascade]
    obtain ⟨hsettled, hreached⟩ := removeMembers_settled hs ht e hremove htakes h hd h
    refine ⟨hsettled, removeMembers_reaches hs ht e hremove htakes hfresh h (.refl d) hd h, hnolinks,
      fun own' held' hjoin' member row hrow hpoints => ?_⟩
    cases hjoin.symm.trans hjoin'
    obtain ⟨old, hold, hfades⟩ := hsettled.later.rows _ _ row hrow
    rw [← hname]
    exact hreached member ((Tables.mem_memberKeys_of_reverse (h.filed hs ht) htarget hjoin).2
      ⟨old, hname ▸ hold, hpoints.of_fades hfades⟩)
  | detach =>
    simp only [releaseMembers, htarget, hjoin, hcascade]
    obtain ⟨hsettled, hcleared⟩ := clearMembers_settled hs ht e hrel hcascade htarget hjoin hd h
    refine ⟨hsettled, fun target' htakes => ?_, hnolinks,
      fun own' held' hjoin' member row hrow hpoints => ?_⟩
    · cases hcascade.symm.trans htakes.delete
    · cases hjoin.symm.trans hjoin'
      obtain ⟨old, hold, hfades⟩ := hsettled.later.rows _ _ row hrow
      have hmember := (Tables.mem_memberKeys_of_reverse (h.filed hs ht) htarget hjoin).2
        ⟨old, hname ▸ hold, (e.points_iff hs hk rfl).2 (hpoints.of_fades hfades)⟩
      obtain ⟨m, hm, rfl⟩ := List.mem_map.1 hmember
      exact absurd hpoints (hcleared m hm row hrow)

/-- A relationship through an association table has the links of the row dropped, and then deletes the
members it had if it takes them along. -/
theorem releaseLinked_settled {remove : Resource → Identity → Deletion → Deletion}
    (hremove : Removes t s name key start remove) (hrel : rel ∈ r.relationships)
    (hfresh : (r.name, owner, rel) ∉ busy) {table own other : String}
    (hjoin : rel.join = .association table own other) {d : Deletion} (hd : Later start d)
    (h : Sound t s name key busy d) :
    Settled t s name key busy d (releaseMembers s remove r current owner d rel) ∧
      Released t s r owner record rel (releaseMembers s remove r current owner d rel) := by
  have hdeclares : s.Declares r rel := ⟨e.resource, hrel⟩
  obtain ⟨target, htarget, -, -⟩ := Schema.exists_target hdeclares
  have hdropped := dropMemberLinks_sound hs ht e hrel hjoin hd h
  have hlater := later_dropLinks d table own owner
  have hunlinked : ∀ after, Later (d.step (·.dropLinks table own owner)) after →
      ∀ table' own' other', rel.join = .association table' own' other' →
        ∀ link ∈ (after.progress.tables.linksOf table').links, link.get? own' ≠ some owner := by
    intro after hafter table' own' other' hjoin' link hlink
    cases hjoin.symm.trans hjoin'
    exact ((mem_linksOf_dropLinks ..).1 (hafter.links table link hlink)).2 rfl
  have hnokey : ∀ {after : Deletion}, ∀ own held, rel.join = .reverse own held → ∀ key row,
      after.progress.tables.rowAt? rel.target key = some row →
        ForeignKey.Points ⟨rel.target, held, r.name, own⟩ row record → (rel.target, key) ∈ after.reached :=
    fun own held hjoin' => by cases hjoin.symm.trans hjoin'
  cases hcascade : rel.cascade with
  | delete =>
    have htakes : TakesAlong s r target rel := ⟨hdeclares, hcascade, by rw [hjoin]; rfl, htarget⟩
    simp only [releaseMembers, htarget, hjoin, hcascade]
    obtain ⟨hsettled, -⟩ := removeMembers_settled hs ht e hremove htakes h (hd.trans hlater) hdropped
    have hreaches :=
      removeMembers_reaches hs ht e hremove htakes hfresh h hlater (hd.trans hlater) hdropped
    refine ⟨⟨hlater.trans hsettled.later, hsettled.sound.finish ?_, hsettled.done⟩, hreaches,
      hunlinked _ hsettled.later, hnokey⟩
    intro r' target' record' hr' htakes' hrow' member hmember
    cases Schema.eq_of_name htakes'.declares.1 e.resource hr'
    cases hrow'.symm.trans e.row
    exact hreaches target' htakes' member hmember
  | detach =>
    have hno : ∀ r' target', ¬TakesAlong s r' target' rel := fun r' target' htakes => by
      cases hcascade.symm.trans htakes.delete
    simp only [releaseMembers, htarget, hjoin, hcascade]
    exact ⟨⟨hlater, hdropped.finish fun r' target' _ _ htakes => absurd htakes (hno r' target'),
        fun e he => .inl he⟩,
      fun target' htakes => absurd htakes (hno r target'), hunlinked _ (.refl _), hnokey⟩

/-- Each relationship of the row lets go of its members. One that holds the foreign key itself has
nothing to let go of. -/
theorem releaseMembers_settled {remove : Resource → Identity → Deletion → Deletion}
    (hremove : Removes t s name key start remove) (hrel : rel ∈ r.relationships)
    (hfresh : (r.name, owner, rel) ∉ busy) {d : Deletion} (hd : Later start d)
    (h : Sound t s name key busy d) :
    Settled t s name key busy d (releaseMembers s remove r current owner d rel) ∧
      Released t s r owner record rel (releaseMembers s remove r current owner d rel) := by
  cases hjoin : rel.join with
  | foreignKey own referenced =>
    obtain ⟨target, htarget, -, -⟩ := Schema.exists_target (s := s) ⟨e.resource, hrel⟩
    simp only [releaseMembers, htarget, hjoin]
    refine ⟨.refl h, fun target' htakes => ?_, fun _ _ _ hjoin' => ?_, fun _ _ hjoin' => ?_⟩
    · have hnot := htakes.join
      rw [hjoin] at hnot
      cases hnot
    · cases hjoin.symm.trans hjoin'
    · cases hjoin.symm.trans hjoin'
  | reverse own held => exact releaseHeld_settled hs ht e hremove hrel hfresh hjoin hd h
  | association table own other => exact releaseLinked_settled hs ht e hremove hrel hfresh hjoin hd h

/-! ## Referrers -/

/-- Whether nothing refers to a row through a relationship of another resource but what is reached. -/
structure Unreferred (r : Resource) (owner : String) (record : Record)
    (x : Resource × Relationship) (d : Deletion) : Prop where
  rows : ∀ own referenced, x.2.join = .foreignKey own referenced → ∀ key row,
    d.progress.tables.rowAt? x.1.name key = some row →
      ForeignKey.Points ⟨x.1.name, own, r.name, referenced⟩ row record → (x.1.name, key) ∈ d.reached
  links : ∀ table own other, x.2.join = .association table own other →
    ∀ link ∈ (d.progress.tables.linksOf table).links, link.get? other ≠ some owner

omit hs ht e in
theorem Unreferred.later {x : Resource × Relationship} {d after : Deletion}
    (h : Unreferred r owner record x d) (hlater : Later d after) :
    Unreferred r owner record x after := by
  refine ⟨fun own referenced hjoin key row hrow hpoints => ?_,
    fun table own other hjoin link hlink => h.links table own other hjoin link (hlater.links table link hlink)⟩
  obtain ⟨old, hold, hfades⟩ := hlater.rows _ _ row hrow
  exact hlater.reached _ (h.rows own referenced hjoin key old hold (hpoints.of_fades hfades))

omit ht in
/-- A member that a relationship takes along is reached before its foreign key is cleared. -/
theorem referrer_safe (hreleased : ∀ rel ∈ r.relationships, Released t s r owner record rel start)
    {source : Resource} {rel : Relationship} (hdeclares : s.Declares source rel)
    (hleads : rel.target = r.name) {own referenced : List String}
    (hjoin : rel.join = .foreignKey own referenced) {member : String} {row : Record}
    (hrow : start.progress.tables.rowAt? source.name member = some row)
    (hpoints : ForeignKey.Points ⟨source.name, own, r.name, referenced⟩ row record) :
    (source.name, member) ∈ start.reached ∨ ∀ r' target rel' own' held, TakesAlong s r' target rel' →
      rel'.join = .reverse own' held → target.name = source.name → ∀ c ∈ held, c ∉ own := by
  by_cases hreached : (source.name, member) ∈ start.reached
  · exact .inl hreached
  refine .inr fun r' target rel' own' held htakes hjoin' htarget c hheld hc => hreached ?_
  have htarget' : rel'.target = source.name := (Schema.name_of_resource? htakes.target).symm.trans htarget
  obtain ⟨hmirror, rfl, rfl⟩ := hs.mirror_of_held hdeclares htakes.declares hjoin hjoin' htarget' hc hheld
  obtain rfl := Schema.eq_of_name htakes.declares.1 e.resource (hmirror.symm.trans hleads)
  have hunreferred := (hreleased rel' htakes.declares.2).unreferred _ _ hjoin' member row
  rw [htarget'] at hunreferred
  exact hunreferred hrow hpoints

/-- Clearing the foreign key of the rows that refer to the row, itself apart. -/
theorem clearReferrers_settled
    (hreleased : ∀ rel ∈ r.relationships, Released t s r owner record rel start)
    {source : Resource} {rel : Relationship} (hdeclares : s.Declares source rel)
    (hleads : rel.target = r.name) {own referenced : List String}
    (hjoin : rel.join = .foreignKey own referenced) {wanted : List Json}
    (hwanted : current.values? referenced = some wanted) {d : Deletion} (hd : Later start d)
    (h : Sound t s name key busy d) {items : List Identity}
    (hitems : items = (((d.progress.tables.rowsOf source.name).filter
      (·.hasValues own wanted)).filterMap source.identityOf?).filter
        fun i => source.name ≠ r.name || i.key ≠ owner) :
    Settled t s name key busy d
        (items.foldl (fun d i => d.step (·.clear source.name i own)) d) ∧
      ∀ key row, (items.foldl (fun d i => d.step (·.clear source.name i own))
          d).progress.tables.rowAt? source.name key = some row →
        ForeignKey.Points ⟨source.name, own, r.name, referenced⟩ row record →
          source.name = r.name ∧ key = owner := by
  have hk : s.HasKey ⟨source.name, own, r.name, referenced⟩ := hleads ▸ hdeclares.hasKey_own hjoin
  -- The items are the rows that point at the row.
  have hmem : ∀ i, i ∈ items ↔ (∃ row, (∃ key, d.progress.tables.rowAt? source.name key = some row) ∧
      row.hasValues own wanted = true ∧ source.identityOf? row = some i) ∧
        ¬(source.name = r.name ∧ i.key = owner) := by
    intro i
    simp only [hitems, List.mem_filter, List.mem_filterMap, Tables.mem_rowsOf, Bool.or_eq_true,
      decide_eq_true_eq, and_assoc, not_and_or]
  have hpoint : ∀ row : Record, row.hasValues own wanted = true →
      ForeignKey.Points ⟨source.name, own, r.name, referenced⟩ row record := fun row hholds =>
    (e.points_iff hs hk rfl).1 ⟨wanted, hwanted, hholds⟩
  have hfiled := h.filed hs ht
  have hrow : ∀ i ∈ items, ∃ row, d.progress.tables.rowAt? source.name i.key = some row ∧
      ForeignKey.Points ⟨source.name, own, r.name, referenced⟩ row record := by
    intro i hi
    obtain ⟨⟨row, ⟨key, hrow⟩, hholds, hidentity⟩, -⟩ := (hmem i).1 hi
    obtain ⟨j, hj, rfl⟩ := hfiled _ _ source row hdeclares.1 hrow
    cases hidentity.symm.trans hj
    exact ⟨row, hrow, hpoint row hholds⟩
  have hcleared := clearAll_settled hs ht e hk rfl
    (fun i hi => by
      obtain ⟨row, hrow, hpoints⟩ := hrow i hi
      obtain ⟨old, hold, hcleared⟩ := h.rows _ _ row hrow
      exact ⟨old, hold, hpoints.of_fades hcleared.fades⟩)
    (fun i hi => by
      obtain ⟨row, hrow, hpoints⟩ := hrow i hi
      obtain ⟨old, hold, hfades⟩ := hd.rows _ _ row hrow
      exact referrer_safe hs e hreleased hdeclares hleads hjoin hold (hpoints.of_fades hfades)) hd h
  refine ⟨hcleared.1, fun key row hnew hpoints => by_contra fun hself => ?_⟩
  obtain ⟨old, hold, hfades⟩ := hcleared.1.later.rows _ _ row hnew
  obtain ⟨i, hi, rfl⟩ := hfiled _ _ source old hdeclares.1 hold
  obtain ⟨wanted', hwanted', hholds⟩ := (e.points_iff hs hk rfl).2 (hpoints.of_fades hfades)
  cases hwanted.symm.trans hwanted'
  exact hcleared.2 i ((hmem i).2 ⟨⟨old, ⟨_, hold⟩, hholds, hi⟩, hself⟩) row hnew hpoints

/-- Dropping the links of a row in the association table of a relationship that leads to it. The
members that another relationship takes along by these links are reached already. -/
theorem dropReferrerLinks_sound
    (hreleased : ∀ rel ∈ r.relationships, Released t s r owner record rel start)
    {source : Resource} {rel : Relationship} (hdeclares : s.Declares source rel)
    (hleads : rel.target = r.name) {table own other : String}
    (hjoin : rel.join = .association table own other) {d : Deletion} (hd : Later start d)
    (h : Sound t s name key busy d) :
    Sound t s name key busy (d.step (·.dropLinks table other owner)) := by
  have hreached : (r.name, owner) ∈ d.reached := hd.reached _ e.reached
  refine h.dropLinks hs ht hreached
    (fun link hlink => ⟨source, rel, own, other, hdeclares, hjoin, .inr ⟨hleads, hlink⟩⟩) ?_
  intro r' target rel' owner' record' own' other' htakes hjoin' hrow member hmember link hown hother hgone
  rcases hs.same_links hdeclares htakes.declares hjoin hjoin' with
    ⟨rfl, rfl, rfl, rfl⟩ | ⟨hmirror, -, rfl, rfl⟩
  · cases hgone.symm.trans hother
    rw [Schema.name_of_resource? htakes.target, hleads]
    exact .inl hreached
  · cases hgone.symm.trans hown
    obtain rfl := Schema.eq_of_name htakes.declares.1 e.resource (hmirror.symm.trans hleads)
    cases hrow.symm.trans e.row
    exact .inl (hd.reached _ ((hreleased rel' htakes.declares.2).members target htakes member hmember))

/-- Everything that refers to the row through a relationship of `source` is told that it goes. -/
theorem releaseReferrers_settled
    (hreleased : ∀ rel ∈ r.relationships, Released t s r owner record rel start)
    {x : Resource × Relationship} (hincoming : x ∈ s.incoming r.name)
    {d : Deletion} (hd : Later start d) (h : Sound t s name key busy d) :
    Settled t s name key busy d (releaseReferrers r current owner d x) ∧
      Unreferred r owner record x (releaseReferrers r current owner d x) := by
  obtain ⟨source, rel⟩ := x
  obtain ⟨hdeclares, hleads⟩ := Schema.mem_incoming.1 hincoming
  cases hjoin : rel.join with
  | foreignKey own referenced =>
    have hnolinks : ∀ after : Deletion, ∀ table own' other, rel.join = .association table own' other →
        ∀ link ∈ (after.progress.tables.linksOf table).links, link.get? other ≠ some owner :=
      fun after table own' other hjoin' => by cases hjoin.symm.trans hjoin'
    cases hvalues : current.values? referenced with
    | none =>
      simp only [releaseReferrers, hjoin, hvalues]
      refine ⟨.refl h, fun own' referenced' hjoin' key row _ hpoints => ?_, hnolinks d⟩
      cases hjoin.symm.trans hjoin'
      have hk : s.HasKey ⟨source.name, own, r.name, referenced⟩ := hleads ▸ hdeclares.hasKey_own hjoin
      obtain ⟨wanted, hwanted, -⟩ := (e.points_iff hs hk rfl).2 hpoints
      cases hvalues.symm.trans hwanted
    | some wanted =>
      simp only [releaseReferrers, hjoin, hvalues]
      obtain ⟨hsettled, hpoints⟩ :=
        clearReferrers_settled hs ht e hreleased hdeclares hleads hjoin hvalues hd h rfl
      refine ⟨hsettled, fun own' referenced' hjoin' key row hrow hpoint => ?_, hnolinks _⟩
      cases hjoin.symm.trans hjoin'
      obtain ⟨hname, rfl⟩ := hpoints key row hrow hpoint
      have hself : (source.name, key) ∈ d.reached := by
        rw [hname]
        exact hd.reached _ e.reached
      exact hsettled.later.reached _ hself
  | reverse own held =>
    simp only [releaseReferrers, hjoin]
    exact ⟨.refl h, fun _ _ hjoin' => (by cases hjoin.symm.trans hjoin'),
      fun _ _ _ hjoin' => by cases hjoin.symm.trans hjoin'⟩
  | association table own other =>
    simp only [releaseReferrers, hjoin]
    have hsound := dropReferrerLinks_sound hs ht e hreleased hdeclares hleads hjoin hd h
    refine ⟨⟨later_dropLinks d table other owner, hsound, fun e he => .inl he⟩,
      fun _ _ hjoin' => (by cases hjoin.symm.trans hjoin'), fun table' own' other' hjoin' link hlink => ?_⟩
    cases hjoin.symm.trans hjoin'
    exact ((mem_linksOf_dropLinks ..).1 hlink).2 rfl

end Release

end Progress.Deletion

end NestedResources
