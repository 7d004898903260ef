import NestedResources.Proofs.Store.Clearing

/-!
# States of a deletion

A deletion is sound if all it has reached goes with the entity at its top, if it has changed no more
than that calls for, and if no member that still has to go has been lost sight of. An entity is done
with if it is gone, its members are reached, and nothing refers to it but what is reached. Steps of a
deletion keep it sound, and what is done stays done.
-/
namespace NestedResources

/-- The same row, where columns of foreign keys that pointed at something gone may now be null. -/
def Schema.Cleared (s : Schema) (t : Tables) (gone : String → String → Prop) (name : String)
    (old new : Record) : Prop :=
  ∀ c, new.get? c = old.get? c ∨ (new.get? c = some .null ∧
    ∃ k key owner, s.HasKey k ∧ k.holder = name ∧ c ∈ k.columns ∧ gone k.owner key ∧
      t.rowAt? k.owner key = some owner ∧ k.Points old owner)

namespace Schema

variable {s : Schema} {t : Tables} {gone : String → String → Prop} {name : String} {old new : Record}

theorem Cleared.fades (h : s.Cleared t gone name old new) : old.Fades new :=
  fun c => (h c).imp id And.left

theorem Cleared.mono (h : s.Cleared t gone name old new) {more : String → String → Prop}
    (hmore : ∀ name key, gone name key → more name key) : s.Cleared t more name old new :=
  fun c => (h c).imp id fun ⟨hnull, k, key, owner, hk, hholder, hc, hgone, hrow, hpoints⟩ =>
    ⟨hnull, k, key, owner, hk, hholder, hc, hmore _ _ hgone, hrow, hpoints⟩

/-- No foreign key is part of an identity, so clearing leaves identities alone. -/
theorem Cleared.get?_identity (h : s.Cleared t gone name old new) (hs : s.Referential) {r : Resource}
    (hr : s.resource? name = some r) : ∀ c ∈ r.identityColumns, new.get? c = old.get? c := by
  intro c hc
  rcases h c with heq | ⟨-, k, -, -, hk, rfl, hcolumn, -⟩
  · exact heq
  · exact absurd hc (hs.apart k hk r hr c hcolumn)

end Schema

namespace Progress.Deletion

variable {s : Schema} {t : Tables} {name key : String}

/-! ## Going on -/

/-- A later state: more is reached, rows are gone or have columns cleared, and links are gone. -/
structure Later (d after : Deletion) : Prop where
  reached : ∀ e ∈ d.reached, e ∈ after.reached
  rows : ∀ name key new, after.progress.tables.rowAt? name key = some new →
    ∃ old, d.progress.tables.rowAt? name key = some old ∧ old.Fades new
  links : ∀ table, ∀ link ∈ (after.progress.tables.linksOf table).links,
    link ∈ (d.progress.tables.linksOf table).links

theorem Later.refl (d : Deletion) : Later d d :=
  ⟨fun _ h => h, fun _ _ new h => ⟨new, h, .refl new⟩, fun _ _ h => h⟩

theorem Later.trans {a b c : Deletion} (h : Later a b) (k : Later b c) : Later a c := by
  refine ⟨fun e he => k.reached e (h.reached e he), fun name key new hnew => ?_,
    fun table link hlink => h.links table link (k.links table link hlink)⟩
  obtain ⟨mid, hmid, hfades⟩ := k.rows name key new hnew
  obtain ⟨old, hold, hfaded⟩ := h.rows name key mid hmid
  exact ⟨old, hold, hfaded.trans hfades⟩

theorem later_clear (d : Deletion) (name : String) (i : Identity) (columns : List String) :
    Later d (d.step (·.clear name i columns)) := by
  refine ⟨fun _ h => h, fun resource key new hnew => ?_, fun table link hlink => ?_⟩
  · rw [step, rowAt?_clear] at hnew
    split at hnew
    · obtain ⟨old, hold, rfl⟩ := Option.map_eq_some_iff.1 hnew
      exact ⟨old, hold, old.fades_cleared columns⟩
    · exact ⟨new, hnew, .refl new⟩
  · rwa [step, linksOf_clear] at hlink

theorem later_dropLinks (d : Deletion) (table column key : String) :
    Later d (d.step (·.dropLinks table column key)) := by
  refine ⟨fun _ h => h, fun resource other new hnew => ?_, fun name link hlink => ?_⟩
  · rw [step, rowAt?_dropLinks] at hnew
    exact ⟨new, hnew, .refl new⟩
  · exact ((mem_linksOf_dropLinks ..).1 hlink).1

theorem rowAt?_dropRow (d : Deletion) (resource key name other : String) :
    (d.dropRow resource key).progress.tables.rowAt? name other =
      if name = resource ∧ other = key then none else d.progress.tables.rowAt? name other := by
  unfold dropRow step
  dsimp only
  split
  · exact Tables.rowAt?_dropRow ..
  · rename_i hnone
    split
    · rename_i h
      rw [h.1, h.2]
      simpa using hnone
    · rfl

@[simp] theorem linksOf_dropRow (d : Deletion) (resource key table : String) :
    (d.dropRow resource key).progress.tables.linksOf table = d.progress.tables.linksOf table := by
  unfold dropRow step
  dsimp only
  split
  · exact Tables.linksOf_dropRow ..
  · rfl

@[simp] theorem reached_dropRow (d : Deletion) (resource key : String) :
    (d.dropRow resource key).reached = d.reached := rfl

theorem later_dropRow (d : Deletion) (resource key : String) : Later d (d.dropRow resource key) := by
  refine ⟨fun _ h => h, fun name other new hnew => ?_, fun table link hlink => ?_⟩
  · rw [rowAt?_dropRow] at hnew
    split at hnew
    · cases hnew
    · exact ⟨new, hnew, .refl new⟩
  · rwa [linksOf_dropRow] at hlink

/-! ## What is done -/

/-- A relationship whose members are deleted with the row they belong to. -/
structure TakesAlong (s : Schema) (r target : Resource) (rel : Relationship) : Prop where
  declares : s.Declares r rel
  delete : rel.cascade = .delete
  join : rel.join.isForeignKey = false
  target : s.target? rel = some target

/-- An entity that is gone and leaves nothing behind: its members are reached, no link names it, and
what still refers to it is reached. -/
structure Done (t : Tables) (s : Schema) (d : Deletion) (e : String × String) : Prop where
  gone : d.progress.tables.rowAt? e.1 e.2 = none
  members : ∀ r target rel record, r.name = e.1 → TakesAlong s r target rel →
    t.rowAt? e.1 e.2 = some record →
      ∀ member ∈ t.memberKeys s r target record rel, (target.name, member) ∈ d.reached
  unnamed : ∀ table, ∀ link ∈ (d.progress.tables.linksOf table).links, ¬s.Names table link e.1 e.2
  unreferred : ∀ k owner, s.HasKey k → k.owner = e.1 → t.rowAt? e.1 e.2 = some owner →
    ∀ key row, d.progress.tables.rowAt? k.holder key = some row → k.Points row owner →
      (k.holder, key) ∈ d.reached

theorem Done.later {d after : Deletion} {e : String × String} (h : Done t s d e)
    (hlater : Later d after) : Done t s after e := by
  refine ⟨?_, fun r target rel record hname htakes hrow member hmember =>
      hlater.reached _ (h.members r target rel record hname htakes hrow member hmember),
    fun table link hlink => h.unnamed table link (hlater.links table link hlink),
    fun k owner hk howner hrow key row hnew hpoints => ?_⟩
  · cases hrow : after.progress.tables.rowAt? e.1 e.2 with
    | none => rfl
    | some new =>
      obtain ⟨old, hold, -⟩ := hlater.rows e.1 e.2 new hrow
      cases h.gone.symm.trans hold
  · obtain ⟨old, hold, hfades⟩ := hlater.rows k.holder key row hnew
    exact hlater.reached _ (h.unreferred k owner hk howner hrow key old hold (hpoints.of_fades hfades))

/-! ## Sound states -/

/-- All that is reached goes with the entity at the top, and no more is changed than that calls for.
A member that goes with its owner is still a member, unless it is reached or the owner is just having
its members deleted. -/
structure Sound (t : Tables) (s : Schema) (name key : String)
    (busy : List (String × String × Relationship)) (d : Deletion) : Prop where
  justified : ∀ e ∈ d.reached, t.Cascades s name key e.1 e.2
  rows : ∀ name key new, d.progress.tables.rowAt? name key = some new →
    ∃ old, t.rowAt? name key = some old ∧ s.Cleared t (fun n k => (n, k) ∈ d.reached) name old new
  missing : ∀ name key old, t.rowAt? name key = some old →
    d.progress.tables.rowAt? name key = none → (name, key) ∈ d.reached
  links : ∀ table, ∀ link ∈ (d.progress.tables.linksOf table).links, link ∈ (t.linksOf table).links
  dropped : ∀ table, ∀ link ∈ (t.linksOf table).links,
    link ∈ (d.progress.tables.linksOf table).links ∨ ∃ e ∈ d.reached, s.Names table link e.1 e.2
  members : ∀ r target rel owner record, TakesAlong s r target rel →
    t.rowAt? r.name owner = some record → ∀ member ∈ t.memberKeys s r target record rel,
      member ∈ d.progress.tables.memberKeys s r target record rel ∨
        (target.name, member) ∈ d.reached ∨ (r.name, owner, rel) ∈ busy
  busy_reached : ∀ x ∈ busy, (x.1, x.2.1) ∈ d.reached

variable {busy : List (String × String × Relationship)} {d : Deletion}

theorem sound_start (t : Tables) (s : Schema) (name key : String) (p : Progress) (hp : p.tables = t) :
    Sound t s name key [] ⟨p, []⟩ := by
  subst hp
  refine ⟨fun e he => (by cases he), fun _ _ new h => ⟨new, h, fun c => .inl rfl⟩,
    fun _ _ old h hnone => ?_, fun _ _ h => h, fun _ _ h => .inl h,
    fun _ _ _ _ _ _ _ member h => .inl h, fun x hx => (by cases hx)⟩
  cases h.symm.trans hnone

/-- Rows that were filed under their identity still are once foreign keys have been cleared. -/
theorem filed_of_cleared (hs : s.Referential) (ht : t.Filed s) {u : Tables}
    {gone : String → String → Prop} (hrows : ∀ name key new, u.rowAt? name key = some new →
      ∃ old, t.rowAt? name key = some old ∧ s.Cleared t gone name old new) : u.Filed s := by
  intro name key r new hr hrow
  obtain ⟨old, hold, hcleared⟩ := hrows name key new hrow
  rw [r.identityOf?_congr (hcleared.get?_identity hs hr)]
  exact ht name key r old hr hold

theorem Sound.filed (h : Sound t s name key busy d) (hs : s.Referential) (ht : t.Filed s) :
    d.progress.tables.Filed s := filed_of_cleared hs ht h.rows

/-- A member that still has to go is one in other tables too, if its row and the links that lead to it
are kept there. -/
theorem Sound.members_kept (h : Sound t s name key busy d) (hs : s.Referential) (ht : t.Filed s)
    {u : Tables} (hu : u.Filed s) {r target : Resource} {rel : Relationship} {owner : String}
    {record : Record} (htakes : TakesAlong s r target rel) (hrow : t.rowAt? r.name owner = some record)
    {member : String} (hmember : member ∈ t.memberKeys s r target record rel)
    (hrows : (target.name, member) ∉ d.reached →
      ∀ row, d.progress.tables.rowAt? target.name member = some row →
        ∃ kept, u.rowAt? target.name member = some kept ∧
          ∀ own held, rel.join = .reverse own held → ∀ c ∈ held, kept.get? c = row.get? c)
    (hlinks : (target.name, member) ∉ d.reached → (r.name, owner, rel) ∉ busy →
      ∀ table own other, rel.join = .association table own other →
        ∀ link ∈ (d.progress.tables.linksOf table).links, link.get? own = some owner →
          link.get? other = some member → link ∈ (u.linksOf table).links) :
    member ∈ u.memberKeys s r target record rel ∨ (target.name, member) ∈ d.reached ∨
      (r.name, owner, rel) ∈ busy := by
  rcases h.members r target rel owner record htakes hrow member hmember with hm | hm
  · by_cases hgoes : (target.name, member) ∈ d.reached ∨ (r.name, owner, rel) ∈ busy
    · exact .inr hgoes
    obtain ⟨hreached, hbusy⟩ := not_or.1 hgoes
    obtain ⟨j, hj, rfl⟩ := ht _ _ r record htakes.declares.1 hrow
    exact .inl (Tables.mem_memberKeys_of_kept (h.filed hs ht) hu htakes.join htakes.target hj hm
      (hrows hreached) (hlinks hreached hbusy))
  · exact .inr hm

/-- Members whose owner had them deleted are all reached. -/
theorem Sound.finish {x : String × String × Relationship} (h : Sound t s name key (x :: busy) d)
    (hdone : ∀ r target record, r.name = x.1 → TakesAlong s r target x.2.2 →
      t.rowAt? x.1 x.2.1 = some record →
        ∀ member ∈ t.memberKeys s r target record x.2.2, (target.name, member) ∈ d.reached) :
    Sound t s name key busy d := by
  refine { h with
    members := fun r target rel owner record htakes hrow member hmember => ?_
    busy_reached := fun y hy => h.busy_reached y (List.mem_cons_of_mem x hy) }
  rcases h.members r target rel owner record htakes hrow member hmember with hm | hm | hm
  · exact .inl hm
  · exact .inr (.inl hm)
  · rcases List.mem_cons.1 hm with rfl | hm
    · exact .inr (.inl (hdone r target record rfl htakes hrow member hmember))
    · exact .inr (.inr hm)

theorem Sound.start {x : String × String × Relationship} (h : Sound t s name key busy d)
    (hx : (x.1, x.2.1) ∈ d.reached) : Sound t s name key (x :: busy) d :=
  { h with
    members := fun r target rel owner record htakes hrow member hmember =>
      (h.members r target rel owner record htakes hrow member hmember).imp id
        (Or.imp id (List.mem_cons_of_mem x))
    busy_reached := fun y hy => by
      rcases List.mem_cons.1 hy with rfl | hy
      · exact hx
      · exact h.busy_reached y hy }

/-! ## Steps -/

/-- An entity that goes with the one at the top is reached. -/
theorem Sound.reach (h : Sound t s name key busy d) {e : String × String}
    (he : t.Cascades s name key e.1 e.2) :
    Sound t s name key busy { d with reached := e :: d.reached } := by
  refine ⟨fun x hx => ?_, fun name key new hnew => ?_, fun name key old hold hnone =>
      List.mem_cons_of_mem e (h.missing name key old hold hnone), h.links, fun table link hlink => ?_,
    fun r target rel owner record htakes hrow member hmember => ?_,
    fun x hx => List.mem_cons_of_mem e (h.busy_reached x hx)⟩
  · rcases List.mem_cons.1 hx with rfl | hx
    · exact he
    · exact h.justified x hx
  · obtain ⟨old, hold, hcleared⟩ := h.rows name key new hnew
    exact ⟨old, hold, hcleared.mono fun _ _ hmem => List.mem_cons_of_mem e hmem⟩
  · exact (h.dropped table link hlink).imp id fun ⟨x, hx, hnames⟩ =>
      ⟨x, List.mem_cons_of_mem e hx, hnames⟩
  · exact (h.members r target rel owner record htakes hrow member hmember).imp id
      (Or.imp (List.mem_cons_of_mem e) id)

section Steps

variable (hs : s.Referential) (ht : t.Filed s)
include hs ht

/-- Clearing a foreign key that pointed at something reached. No member is lost by it if the row is
reached, or if no relationship that takes members along uses the columns. -/
theorem Sound.clear (h : Sound t s name key busy d) {k : ForeignKey} (hk : s.HasKey k)
    {gone : String} {owner old : Record} {i : Identity} (hgone : (k.owner, gone) ∈ d.reached)
    (howner : t.rowAt? k.owner gone = some owner) (hold : t.rowAt? k.holder i.key = some old)
    (hpoints : k.Points old owner)
    (hsafe : (k.holder, i.key) ∈ d.reached ∨ ∀ r target rel own held, TakesAlong s r target rel →
      rel.join = .reverse own held → target.name = k.holder → ∀ c ∈ held, c ∉ k.columns) :
    Sound t s name key busy (d.step (·.clear k.holder i k.columns)) := by
  have hrows : ∀ name key new,
      (d.step (·.clear k.holder i k.columns)).progress.tables.rowAt? name key = some new →
        ∃ old, t.rowAt? name key = some old ∧
          s.Cleared t (fun n k => (n, k) ∈ d.reached) name old new := by
    intro name key new hnew
    rw [step, rowAt?_clear] at hnew
    split at hnew
    · rename_i hsame
      obtain ⟨rfl, rfl⟩ := hsame
      obtain ⟨before, hbefore, rfl⟩ := Option.map_eq_some_iff.1 hnew
      obtain ⟨first, hfirst, hcleared⟩ := h.rows _ _ before hbefore
      cases hold.symm.trans hfirst
      refine ⟨old, hold, fun c => ?_⟩
      rw [Record.get?_cleared]
      split
      · rename_i hc
        exact .inr ⟨rfl, k, gone, owner, hk, rfl, hc, hgone, howner, hpoints⟩
      · exact hcleared c
    · exact h.rows name key new hnew
  refine ⟨h.justified, hrows, fun name key old hold hnone => ?_, fun table link hlink => ?_,
    fun table link hlink => ?_, fun r target rel owner record htakes hrow member hmember => ?_,
    h.busy_reached⟩
  · refine h.missing name key old hold ?_
    rw [step, rowAt?_clear] at hnone
    split at hnone
    · exact Option.map_eq_none_iff.1 hnone
    · exact hnone
  · rw [step, linksOf_clear] at hlink
    exact h.links table link hlink
  · rw [step, linksOf_clear]
    exact h.dropped table link hlink
  · refine h.members_kept hs ht (filed_of_cleared hs ht hrows) htakes hrow hmember
      (fun hreached row hrow => ?_) fun _ _ table own other _ link hlink _ _ => ?_
    · rw [step, rowAt?_clear]
      split
      · rename_i hsame
        refine ⟨row.cleared k.columns, by rw [hrow]; rfl, fun own held hjoin c hc => ?_⟩
        rw [Record.get?_cleared, if_neg]
        rcases hsafe with hsafe | hsafe
        · exact absurd (hsame.1 ▸ hsame.2 ▸ hsafe) hreached
        · exact hsafe r target rel own held htakes hjoin hsame.1 c hc
      · exact ⟨row, hrow, fun _ _ _ _ _ => rfl⟩
    · rwa [step, linksOf_clear]

/-- Dropping links that name something reached. No member is lost by it if the members whose links
are dropped are reached, or their owner is just having them deleted. -/
theorem Sound.dropLinks (h : Sound t s name key busy d) {table column gone : String}
    {e : String × String} (he : e ∈ d.reached)
    (hnames : ∀ link, link.get? column = some gone → s.Names table link e.1 e.2)
    (hsafe : ∀ r target rel owner record own other, TakesAlong s r target rel →
      rel.join = .association table own other → t.rowAt? r.name owner = some record →
        ∀ member ∈ t.memberKeys s r target record rel, ∀ link : Link, link.get? own = some owner →
          link.get? other = some member → link.get? column = some gone →
            (target.name, member) ∈ d.reached ∨ (r.name, owner, rel) ∈ busy) :
    Sound t s name key busy (d.step (·.dropLinks table column gone)) := by
  have hrows : ∀ name key, (d.step (·.dropLinks table column gone)).progress.tables.rowAt? name key
      = d.progress.tables.rowAt? name key := fun name key => rowAt?_dropLinks ..
  refine ⟨h.justified, fun name key new hnew => h.rows name key new ((hrows name key).symm.trans hnew),
    fun name key old hold hnone => h.missing name key old hold ((hrows name key).symm.trans hnone),
    fun name link hlink => h.links name link ((mem_linksOf_dropLinks ..).1 hlink).1,
    fun name link hlink => ?_, fun r target rel owner record htakes hrow member hmember => ?_,
    h.busy_reached⟩
  · rcases h.dropped name link hlink with hlink | hgone
    · by_cases hdrop : name = table ∧ link.get? column = some gone
      · obtain ⟨rfl, hcolumn⟩ := hdrop
        exact .inr ⟨e, he, hnames link hcolumn⟩
      · refine .inl ((mem_linksOf_dropLinks ..).2 ⟨hlink, fun hname hcolumn => ?_⟩)
        exact hdrop ⟨hname, hcolumn⟩
    · exact .inr hgone
  · have hafter : (d.step (·.dropLinks table column gone)).progress.tables.Filed s :=
      filed_of_cleared hs ht fun name key new hnew => h.rows name key new ((hrows name key).symm.trans hnew)
    refine h.members_kept hs ht hafter htakes hrow hmember
      (fun _ row hrow => ⟨row, (hrows _ _).trans hrow, fun _ _ _ _ _ => rfl⟩)
      fun hreached hbusy name own other hjoin link hlink hown hother => ?_
    refine (mem_linksOf_dropLinks ..).2 ⟨hlink, fun hname hcolumn => ?_⟩
    subst hname
    exact (hsafe r target rel owner record own other htakes hjoin hrow member hmember link hown hother
      hcolumn).elim hreached hbusy

/-- Dropping the row of something reached. -/
theorem Sound.dropRow (h : Sound t s name key busy d) {resource gone : String}
    (hgone : (resource, gone) ∈ d.reached) : Sound t s name key busy (d.dropRow resource gone) := by
  have hrows : ∀ name key new, (d.dropRow resource gone).progress.tables.rowAt? name key = some new →
      d.progress.tables.rowAt? name key = some new := by
    intro name key new hnew
    rw [rowAt?_dropRow] at hnew
    split at hnew
    · cases hnew
    · exact hnew
  refine ⟨h.justified, fun name key new hnew => h.rows name key new (hrows name key new hnew),
    fun name key old hold hnone => ?_, fun table link hlink => ?_, fun table link hlink => ?_,
    fun r target rel owner record htakes hrow member hmember => ?_, h.busy_reached⟩
  · rw [rowAt?_dropRow] at hnone
    split at hnone
    · rename_i hsame
      rw [hsame.1, hsame.2]
      exact hgone
    · exact h.missing name key old hold hnone
  · rw [linksOf_dropRow] at hlink
    exact h.links table link hlink
  · rw [linksOf_dropRow]
    exact h.dropped table link hlink
  · have hafter : (d.dropRow resource gone).progress.tables.Filed s :=
      filed_of_cleared hs ht fun name key new hnew => h.rows name key new (hrows name key new hnew)
    refine h.members_kept hs ht hafter htakes hrow hmember
      (fun hreached row hrow => ⟨row, ?_, fun _ _ _ _ _ => rfl⟩) fun _ _ table _ _ _ link hlink _ _ => ?_
    · rw [rowAt?_dropRow, if_neg, hrow]
      rintro ⟨rfl, rfl⟩
      exact hreached hgone
    · rwa [linksOf_dropRow]

end Steps

end Progress.Deletion

end NestedResources
