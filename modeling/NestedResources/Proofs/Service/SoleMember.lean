import NestedResources.Proofs.Service.ToOneUpdate
import NestedResources.Proofs.Write.Sole

/-!
# One member at most

An update that names the member of a relationship to one entity makes it a member. Besides it only those
stay that the caller does not see, unless it was a member already: then nothing changes at all
(`WriteOp.sole_member_of_named`).
-/
namespace NestedResources

/-- The columns that a relationship writes are told apart from those that it is told by: no column is
written twice, a foreign key onto identities is no part of an identity of the target, nor is one that the
target holds, and an entity that is linked to itself does not write what the key refers to. -/
def Relationship.StandsApart (rel : Relationship) (r target : Resource) (i j : Identity) : Prop :=
  match rel.join with
  | .foreignKey own referenced => own.Nodup ∧ (∀ c ∈ target.identityColumns, c ∈ referenced) ∧
      (target.name = r.name → ∀ c ∈ target.identityColumns, c ∉ own) ∧
      (target.name = r.name → j.key = i.key → ∀ c ∈ referenced, c ∉ own)
  | .reverse own held => held.Nodup ∧ (∀ c ∈ held, c ∉ target.identityColumns) ∧
      (target.name = r.name → j.key = i.key → ∀ c ∈ own, c ∉ held)
  | .association _ _ _ => False

/-- The row under a key does not pass what the gate of its resource requires. -/
def Registry.Hides (g : Registry) (ctx : Context) (t : Tables) (r : Resource) (key : String) : Prop :=
  ∃ required, g.required ctx r = .ok required ∧
    ∀ row, t.rowAt? r.name key = some row → t.passes g.schema r required row = false

namespace WriteOp

variable {g : Registry} {ctx : Context} {mode : WriteMode} {d after : Desk} {r target : Resource}
  {rel : Relationship} {i j : Identity} {record childRow : Record} {members : List (String × Json)}
  {o : Outcome}

/-- A replacement by a key of the members writes no part of their identities. -/
theorem apartFrom_of_replacement (hs : g.schema.LeadsToOne r target rel) {own held : List String}
    (hjoin : rel.join = .reverse own held) (hheld : ∀ c ∈ held, c ∉ target.identityColumns)
    {others : List Identity} {change : LinkChange}
    (hchange : Command.link change ∈ Progress.replacement r rel i j others) :
    target.ApartFrom g.schema change := by
  cases Progress.eq_of_mem_replacement hchange
  intro owner howner rel' hrel' k hk _ column hcolumn
  cases hs.resource.symm.trans howner
  cases hs.relationship.symm.trans hrel'
  rw [Relationship.foreignKey?, hjoin] at hk
  cases hk
  exact hheld column hcolumn

/-- Where members hold the key, those that are not seen stay besides the one that is named. -/
theorem members_of_replacement {p : Progress} {required : Option Predicate}
    (hs : g.schema.LeadsToOne r target rel) (hfiled : d.store.tables.Filed g.schema)
    (hstores : d.store.tables.Stores r i record) {own held : List String}
    (hjoin : rel.join = .reverse own held) (hnodup : held.Nodup)
    (hheld : ∀ c ∈ held, c ∉ target.identityColumns)
    (hitself : target.name = r.name → j.key = i.key → ∀ c ∈ own, c ∉ held)
    (hparts : rel.cascade = .delete → target.RequiresHeld g.schema)
    (hplan : (Progress.replacement r rel i j
      (seenMembers g ctx d.store.tables r target rel i record required)).foldlM
        (Progress.apply g.schema) { store := d.store } = .ok p)
    (hfull : p.emptyColumn? g.schema = none) :
    ∃ new, p.tables.row? r.name i = some new ∧
      (p.tables.memberKeys g.schema r target new rel).Nodup ∧
      j.key ∈ p.tables.memberKeys g.schema r target new rel ∧
      ∀ key ∈ p.tables.memberKeys g.schema r target new rel, key ≠ j.key →
        key ∈ d.store.tables.memberKeys g.schema r target record rel ∧
        ∀ row, d.store.tables.rowAt? target.name key = some row →
          d.store.tables.passes g.schema target required row = false := by
  have hfiledAt : ∀ key row, p.tables.rowAt? target.name key = some row → target.FiledAt key row := by
    intro key row hrow
    cases hpolicy : rel.cascade with
    | detach =>
      have hkept := Progress.sameIdentities_replacement (p := { store := d.store }) hs hjoin hpolicy
        (fun c hc hin => hheld c hin hc) hplan
      exact hkept.filedAt (fun old hold => hfiled target.name key target old hs.resource_target hold) hrow
    | delete =>
      exact Progress.filedAt_of_run (p := { store := d.store }) hfiled hs.resource_target (hparts hpolicy)
        (fun change => apartFrom_of_replacement hs hjoin hheld) hplan hfull hrow
  have hkeyed : p.tables.Keyed target := by
    intro key row k hrow hk
    obtain ⟨k', hk', hkey⟩ := hfiledAt key row hrow
    cases hk.symm.trans hk'
    exact hkey
  obtain ⟨q, hunlinks, hlink⟩ := Progress.replacement_of_held hjoin hplan
  obtain ⟨old, -, -, hold, -, -, -⟩ := Progress.link_of_held hs hjoin hlink
  obtain ⟨new, hnew, hmember, hothers⟩ := Progress.memberKeys_link_held hs hjoin hnodup hitself hkeyed
    (fun row hrow => hfiledAt j.key row hrow) hold hlink
  refine ⟨new, hnew, Tables.nodup_memberKeys hs hkeyed, hmember, fun key hkey hne => ?_⟩
  obtain ⟨hbefore, hunseen⟩ := Progress.memberKeys_unlinks (p := { store := d.store }) hs
    (hfiled.keyed hs.resource_target) hstores.row hunlinks hold key (hothers key hkey hne)
  refine ⟨hbefore, fun row hrow => Bool.eq_false_iff.2 fun hpasses => hunseen ?_⟩
  -- A member that passes is seen.
  obtain ⟨k, hk, rfl⟩ := hfiled target.name key target row hs.resource_target hrow
  refine List.mem_map_of_mem ((WalkSite.mem_seen (owns_of_stores hs hstores)).2 ?_)
  exact ⟨row, Tables.mem_rowsOf.2 ⟨k.key, hrow⟩, hk, hbefore, hpasses⟩

/-- An update that names the member of a relationship to one entity makes it a member. Besides it there
are only members that were so before and that the gate of the target hides; or it was a member already, and
nothing changes. -/
theorem sole_member_of_named (hother : rel.name ≠ selfKey) (hfiled : d.store.tables.Filed g.schema)
    (hpair : d.store.tables.Pairs g.schema r target rel i j childRow)
    (hstores : d.store.tables.Stores r i record) (hnames : target.Names members j)
    (hapart : rel.StandsApart r target i j)
    (hparts : rel.join.isForeignKey = false → rel.cascade = .delete → target.RequiresHeld g.schema)
    (hok : Serving.on (Serving.commit g ctx
      (update r.name i (.obj [(rel.name, .obj members)]) mode).walk) d = (.ok o, after)) :
    ∃ new, after.store.tables.row? r.name i = some new ∧
      (after.store.tables.memberKeys g.schema r target new rel).Nodup ∧
      j.key ∈ after.store.tables.memberKeys g.schema r target new rel ∧
      ∀ key ∈ after.store.tables.memberKeys g.schema r target new rel, key ≠ j.key →
        key ∈ d.store.tables.memberKeys g.schema r target record rel ∧
        ((rel.join.isForeignKey = false ∧ g.Hides ctx d.store.tables target key) ∨
          (j.key ∈ d.store.tables.memberKeys g.schema r target record rel ∧ after.store = d.store ∧
            ¬rel.Repeats record childRow)) := by
  have hs := hpair.leads
  have hkeyed := hfiled.keyed hs.resource_target
  rcases commit_named hpair hnames hok with ⟨hself, -⟩ | ⟨-, row, hrow, hcases⟩
  · exact absurd hself hother
  cases hrow.row.symm.trans hstores.row
  rcases hcases with ⟨hmember, hafter⟩ | ⟨-, required, p, hrequired, hplan, hfull, hafter⟩
  · rw [hafter]
    refine ⟨record, hstores.row, Tables.nodup_memberKeys hs hkeyed, hmember, fun key hkey hne => ?_⟩
    refine ⟨hkey, .inr ⟨hmember, rfl, fun hrepeats => hne ?_⟩⟩
    obtain ⟨own, referenced, hjoin⟩ := hrepeats.join
    simp only [Relationship.StandsApart, hjoin] at hapart
    rw [Tables.memberKeys_of_repeats hs hjoin hapart.2.1 hkeyed hpair.pinpointsChild hpair.child hrepeats,
      List.mem_singleton] at hkey
    exact hkey
  rw [hafter]
  cases hjoin : rel.join with
  | foreignKey own referenced =>
    simp only [Relationship.StandsApart, hjoin] at hapart
    obtain ⟨new, hnew, hkeys⟩ := Progress.memberKeys_link_own (p := { store := d.store }) hs hjoin hapart.1
      hapart.2.1 hapart.2.2.1 hapart.2.2.2 hkeyed hpair.pinpointsChild hpair.child
      (Progress.replacement_of_own hjoin hplan)
    change p.store.tables.memberKeys g.schema r target new rel = [j.key] at hkeys
    refine ⟨new, hnew, ?_⟩
    rw [hkeys]
    refine ⟨List.nodup_singleton _, List.mem_singleton_self _, fun key hkey hne => ?_⟩
    exact absurd (List.mem_singleton.1 hkey) hne
  | reverse own held =>
    simp only [Relationship.StandsApart, hjoin] at hapart
    obtain ⟨new, hnew, hnodup, hmember, hothers⟩ := members_of_replacement hs hfiled hstores hjoin hapart.1
      hapart.2.1 hapart.2.2 (hparts (by rw [hjoin]; rfl)) hplan hfull
    refine ⟨new, hnew, hnodup, hmember, fun key hkey hne => ?_⟩
    obtain ⟨hbefore, hhidden⟩ := hothers key hkey hne
    exact ⟨hbefore, .inl ⟨rfl, required, hrequired, hhidden⟩⟩
  | association table own other => exact absurd hjoin (hs.columns table own other)

end WriteOp

namespace Music

/-- The tied staff without the fourth employee. -/
def discreet : Registry :=
  { openTied with
    gates := [("employees", { required := fun _ _ => some (.compare ⟨"employee_id", .ne, .int 4⟩) })] }

/-- The required filter in terms of the store. -/
def notFourth : Predicate := .compare "employee_id" .integer .ne (.int 4)

def updateDiscreetly (id : Int) (relationship : String) (raw : Json) : Serving Outcome :=
  Serving.commit discreet ⟨.empty⟩
    (WriteOp.update "employees" ⟨[.int id]⟩ (.obj [(relationship, raw)]) .patch).walk

/-- The sixth employee replaces those who report to the second one, but for the hidden one. -/
theorem sixth_is_sole_visible_report : ∃ o after new,
    (updateDiscreetly 2 "reports" (employee 6)).on staffDesk = (.ok o, after) ∧
      after.store.tables.row? "employees" ⟨[.int 2]⟩ = some new ∧
      (after.store.tables.memberKeys tiedSchema tied tied new soleReport).Nodup ∧
      "6" ∈ after.store.tables.memberKeys tiedSchema tied tied new soleReport ∧
      ∀ key ∈ after.store.tables.memberKeys tiedSchema tied tied new soleReport, key ≠ "6" → key = "4" := by
  rcases hon : (updateDiscreetly 2 "reports" (employee 6)).on staffDesk with ⟨result, after⟩
  have hok : ((updateDiscreetly 2 "reports" (employee 6)).on staffDesk).1.isOk = true := by decide +kernel
  rw [hon] at hok
  obtain ⟨o, rfl⟩ := Except.exists_of_isOk hok
  have hsecond : staffDesk.store.tables.Stores tied ⟨[.int 2]⟩ employeeRows[1].record := ⟨rfl, rfl⟩
  have hsixth : staffDesk.store.tables.Stores tied ⟨[.int 6]⟩ employeeRows[5].record := ⟨rfl, rfl⟩
  have hkeys : staffDesk.store.tables.memberKeys discreet.schema tied tied employeeRows[1].record
      soleReport = ["3", "4", "5"] := by decide +kernel
  have hother : soleReport.name ≠ selfKey := by decide
  obtain ⟨new, hnew, hnodup, hmember, hothers⟩ := WriteOp.sole_member_of_named (g := discreet) hother filed_tied
    ⟨leadsToOne_soleReport, hsixth, pinpoints_tied hsecond, pinpoints_tied hsixth⟩ hsecond
    ⟨by decide +kernel, ⟨none, rfl, by decide⟩, rfl⟩
    ⟨by decide +kernel, by decide +kernel, fun _ h => absurd h (by decide +kernel)⟩
    (fun _ _ => by decide +kernel) hon
  refine ⟨o, after, new, rfl, hnew, hnodup, hmember, fun key hkey hne => ?_⟩
  obtain ⟨hbefore, ⟨-, required, hrequired, hhidden⟩ | ⟨hin, -⟩⟩ := hothers key hkey hne
  · have hfilter : discreet.required ⟨.empty⟩ tied = .ok (some notFourth) := rfl
    cases hfilter.symm.trans hrequired
    have hseen : ∀ (e : Employee), staffDesk.store.tables.rowAt? "employees" key = some e.record →
        staffDesk.store.tables.passes tiedSchema tied (some notFourth) e.record ≠ true := fun e he hpasses =>
      Bool.false_ne_true ((hhidden e.record he).symm.trans hpasses)
    rw [hkeys] at hbefore
    rcases List.mem_cons.1 hbefore with rfl | hbefore
    · exact (hseen employeeRows[2] rfl (by decide +kernel)).elim
    rcases List.mem_cons.1 hbefore with rfl | hbefore
    · rfl
    obtain rfl := List.mem_singleton.1 hbefore
    exact (hseen employeeRows[4] rfl (by decide +kernel)).elim
  · rw [hkeys] at hin
    exact absurd hin (by decide +kernel)

/-- Who is a member already stays one of three. -/
theorem third_is_one_of_three :
    staffDesk.store.tables.Filed tiedSchema ∧ tiedSchema.LeadsToOne tied tied soleReport ∧
      let named := (updateTied 2 "reports" (employee 3)).on staffDesk
      named.1.isOk = true ∧
        (named.2.store.tables.row? "employees" ⟨[.int 2]⟩).map (fun record =>
          named.2.store.tables.memberKeys tiedSchema tied tied record soleReport) = some ["3", "4", "5"] :=
  ⟨filed_tied, leadsToOne_soleReport, by decide +kernel, by decide +kernel⟩

end Music

end NestedResources
