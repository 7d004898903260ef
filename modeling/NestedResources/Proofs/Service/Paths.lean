import NestedResources.Proofs.Service.NonInterference
import NestedResources.Proofs.Service.Routing
import NestedResources.Proofs.Service.VisibleMembers

/-!
# Nested paths

A path crosses relationships from entity to entity. It leads on only from a visible entity, only to a
visible member, and through a to-one relationship to the least one; where it leads to, the rest of the
path means what it means behind a path that starts there.
-/
namespace NestedResources

/-- A relationship on a path, with the segments that name a member if there are several. -/
structure Crossing where
  relationship : String
  member : List String := []

/-- The segments of crossings. -/
def Crossing.segments (xs : List Crossing) : List String := xs.flatMap fun x => x.relationship :: x.member

/-- Whether a request is answered that something is not found. -/
def Serving.Misses {α : Type} (m : Serving α) (d : Desk) : Prop :=
  ∃ resource what, m.on d = (.error (.notFound resource what), d)

namespace Service

variable (svc : Service) (ctx : Context)

/-- Whether crossings go from a resource to another one, by relationships and as many segments as an
identity has. -/
def Spells (last : Resource) : Resource → List Crossing → Prop
  | r, [] => r = last
  | r, x :: xs => ∃ rel target, svc.related r x.relationship = .ok (rel, target) ∧
      x.member.length = (if rel.isMany then target.identity.length else 0) ∧ Spells last target xs

/-- Whether a crossing leads from an entity to `child`: the member that its segments name, or the least
one of a to-one relationship. -/
def Crosses (t : Tables) (r : Resource) (i : Identity) (rel : Relationship) (target : Resource)
    (member : List String) (child : Identity) : Prop :=
  svc.Visible ctx t r i ∧
    if rel.isMany then target.parseIdentity? member = some child ∧ svc.VisibleMember ctx t r i rel target child
    else svc.LeastMember ctx t r i rel target (some child)

/-- Whether crossings lead from an entity to `reached`, an entity of `last`. -/
def Leads (t : Tables) (last : Resource) (reached : Identity) : Resource → Identity → List Crossing → Prop
  | r, i, [] => r = last ∧ i = reached
  | r, i, x :: xs => ∃ rel target child, svc.related r x.relationship = .ok (rel, target) ∧
      svc.Crosses ctx t r i rel target x.member child ∧ Leads t last reached target child xs

variable {svc ctx} {path : String} {r target : Resource} {i : Identity} {rel : Relationship} {name : String}
  {rest : List String} {d : Desk}

section

variable (h : svc.Settled ctx d.store.tables) (hr : svc.schema.resource? r.name = some r) (hi : r.Fits i)
  (hrelated : svc.related r name = .ok (rel, target))

include h hr hi hrelated

/-- Nothing is found behind an entity that is not visible. -/
theorem follow_of_hidden (path : String) (rest : List String)
    (hhidden : ¬svc.Visible ctx d.store.tables r i) :
    (svc.follow ctx path r i (name :: rest)).on d = (.error (.notFound r.name i.key), d) := by
  rw [follow_related hr hrelated, Serving.bind_on, (h.ensureVisible_on rfl hr hi).2 hhidden]

/-- A named member is gone to if it is visible. -/
theorem follow_many (path : String) {rest : List String} (hmany : rel.isMany = true)
    (hvisible : svc.Visible ctx d.store.tables r i) (hrest : rest ≠ []) :
    (∀ child, target.parseIdentity? (rest.take target.identity.length) = some child →
      svc.VisibleMember ctx d.store.tables r i rel target child →
      (svc.follow ctx path r i (name :: rest)).on d =
        (svc.follow ctx path target child (rest.drop target.identity.length)).on d) ∧
    ((∀ child, target.parseIdentity? (rest.take target.identity.length) = some child →
      ¬svc.VisibleMember ctx d.store.tables r i rel target child) →
      (svc.follow ctx path r i (name :: rest)).Misses d) := by
  obtain ⟨row, hshows, hrow⟩ := hvisible
  obtain ⟨-, htarget⟩ := related_eq_ok hrelated
  have hempty : rest.isEmpty = false := List.isEmpty_eq_false_iff.2 hrest
  have hgo : (svc.follow ctx path r i (name :: rest)).on d = Serving.on (do
      let child ← takeIdentity path target rest
      if ← svc.hasMember ctx r i name child then
        svc.follow ctx path target child (rest.drop target.identity.length)
      else throw (.notFound target.name child.key)) d := by
    rw [follow_related hr hrelated, Serving.bind_on, (h.ensureVisible_on rfl hr hi).1 ⟨row, hshows, hrow⟩]
    simp only [hmany, hempty, if_true, Bool.false_eq_true, if_false]
  unfold Serving.Misses
  rw [hgo, Serving.bind_on, Serving.liftM_on, takeIdentity_eq]
  cases hparse : target.parseIdentity? (rest.take target.identity.length) with
  | none => exact ⟨fun child hchild => (by cases hchild), fun _ => ⟨target.name, path, rfl⟩⟩
  | some child =>
    have hchild := Resource.fits_of_parseIdentity? (h.exact _ _ htarget) hparse
    obtain ⟨found, hon, hfound⟩ := h.hasMember_on rfl hr hrelated hshows.1 hrow hchild
    dsimp only
    rw [Serving.bind_on, hon]
    refine ⟨fun other hother hvisible => ?_, fun hnone => ⟨target.name, child.key, ?_⟩⟩
    · cases hother
      simp only [hfound.2 hvisible, if_true]
    · have hno : found = false := Bool.eq_false_iff.2 fun hyes => hnone child rfl (hfound.1 hyes)
      simp only [hno, Bool.false_eq_true, if_false]
      rfl

/-- A to-one relationship is the end of a path, or leads on to its least visible member. -/
theorem follow_one (path : String) (rest : List String) (hone : rel.isMany = false)
    (hvisible : svc.Visible ctx d.store.tables r i) :
    ∃ found, svc.LeastMember ctx d.store.tables r i rel target found ∧
      (svc.follow ctx path r i (name :: rest)).on d =
        if rest = [] then (.ok (.toOne r i name (found.map (target, ·))), d)
        else match found with
          | none => (.error (.notFound target.name path), d)
          | some m => (svc.follow ctx path target m rest).on d := by
  obtain ⟨row, hshows, hrow⟩ := hvisible
  obtain ⟨found, hon, hleast⟩ := h.relatedIdentity_on rfl hr hrelated hshows.1 hrow
  refine ⟨found, hleast, ?_⟩
  rw [follow_related hr hrelated, Serving.bind_on, (h.ensureVisible_on rfl hr hi).1 ⟨row, hshows, hrow⟩]
  simp only [hone, Bool.false_eq_true, if_false]
  rw [Serving.bind_on, hon]
  cases rest with
  | nil => rfl
  | cons => cases found <;> rfl

/-- One crossing leads to one entity at most, from where the path goes on. -/
theorem follow_crossing (path : String) {member rest : List String}
    (hlength : member.length = if rel.isMany then target.identity.length else 0)
    (hrest : member = [] → rest ≠ []) :
    (∃ child, target.Fits child ∧
      (∀ other, svc.Crosses ctx d.store.tables r i rel target member other ↔ other = child) ∧
      (svc.follow ctx path r i (name :: (member ++ rest))).on d = (svc.follow ctx path target child rest).on d) ∨
    (∀ child, ¬svc.Crosses ctx d.store.tables r i rel target member child) ∧
      (svc.follow ctx path r i (name :: (member ++ rest))).Misses d := by
  obtain ⟨-, htarget⟩ := related_eq_ok hrelated
  by_cases hvisible : svc.Visible ctx d.store.tables r i
  swap
  · exact .inr ⟨fun _ hcrosses => hvisible hcrosses.1, r.name, i.key,
      follow_of_hidden h hr hi hrelated path _ hvisible⟩
  unfold Crosses
  cases hmany : rel.isMany with
  | true =>
    simp only [hmany, if_true] at hlength ⊢
    have hidentity := (Schema.faultless_of_resource? htarget).1
    have hne : member ++ rest ≠ [] := fun hnil => hidentity <| by
      rw [(List.append_eq_nil_iff.1 hnil).1] at hlength
      exact List.length_eq_zero_iff.1 hlength.symm
    have hfollow := follow_many h hr hi hrelated path hmany hvisible hne
    rw [← hlength, List.take_left, List.drop_left] at hfollow
    by_cases hchild : ∃ child, target.parseIdentity? member = some child ∧
        svc.VisibleMember ctx d.store.tables r i rel target child
    · obtain ⟨child, hparse, hmember⟩ := hchild
      refine .inl ⟨child, h.fits_of_visibleMember htarget hmember, fun other => ⟨fun ⟨_, hother, _⟩ => ?_, ?_⟩,
        hfollow.1 child hparse hmember⟩
      · exact Option.some.inj (hother.symm.trans hparse)
      · rintro rfl
        exact ⟨hvisible, hparse, hmember⟩
    · exact .inr ⟨fun child ⟨_, hparse, hmember⟩ => hchild ⟨child, hparse, hmember⟩,
        hfollow.2 fun child hparse hmember => hchild ⟨child, hparse, hmember⟩⟩
  | false =>
    simp only [hmany, Bool.false_eq_true, if_false] at hlength ⊢
    obtain rfl := List.length_eq_zero_iff.1 hlength
    obtain ⟨found, hleast, hon⟩ := follow_one h hr hi hrelated path rest hmany hvisible
    unfold Serving.Misses
    rw [List.nil_append, hon, if_neg (hrest rfl)]
    cases found with
    | none => exact .inr ⟨fun child ⟨_, hother⟩ => hleast child hother.1, target.name, path, rfl⟩
    | some child =>
      refine .inl ⟨child, h.fits_of_visibleMember htarget hleast.1, fun other => ⟨fun ⟨_, hother⟩ => ?_, ?_⟩, rfl⟩
      · exact Option.some.inj (h.leastMember_unique htarget hother hleast)
      · rintro rfl
        exact ⟨hvisible, hleast⟩

end

/-! ## Chains of crossings -/

/-- Whether there is something to follow behind the last crossing: the rest of a path, or at least the
segments of a member. -/
def GoesOn (xs : List Crossing) (rest : List String) : Prop :=
  rest = [] → ∀ x, xs.getLast? = some x → x.member ≠ []

theorem GoesOn.tail {x : Crossing} {xs : List Crossing} (h : GoesOn (x :: xs) rest) : GoesOn xs rest :=
  fun hrest y hy => h hrest y (by rw [List.getLast?_cons, hy]; rfl)

/-- Behind a crossing that names no member the path goes on. -/
theorem GoesOn.ne_nil {x : Crossing} {xs : List Crossing} (h : GoesOn (x :: xs) rest)
    (hmember : x.member = []) : Crossing.segments xs ++ rest ≠ [] := by
  cases xs with
  | nil => exact fun hrest => h (List.append_eq_nil_iff.1 hrest).2 x rfl hmember
  | cons y ys => simp [Crossing.segments]

theorem Spells.resource? {last : Resource} {xs : List Crossing} (hspells : svc.Spells last r xs)
    (hr : svc.schema.resource? r.name = some r) : svc.schema.resource? last.name = some last := by
  induction xs generalizing r with
  | nil => exact hspells ▸ hr
  | cons x xs ih =>
    obtain ⟨rel, target, hrelated, -, hspells⟩ := hspells
    exact ih hspells (Schema.resource?_of_target? (related_eq_ok hrelated).2)

/-- Behind crossings that lead somewhere a path goes on from there; behind others nothing is found. -/
theorem follow_crossings (h : svc.Settled ctx d.store.tables) (path : String) {last : Resource}
    {xs : List Crossing} (hr : svc.schema.resource? r.name = some r) (hi : r.Fits i)
    (hspells : svc.Spells last r xs) (hgoes : GoesOn xs rest) :
    (∃ c, (∀ other, svc.Leads ctx d.store.tables last other r i xs ↔ other = c) ∧ last.Fits c ∧
      (svc.follow ctx path r i (Crossing.segments xs ++ rest)).on d = (svc.follow ctx path last c rest).on d) ∨
    (∀ c, ¬svc.Leads ctx d.store.tables last c r i xs) ∧
      (svc.follow ctx path r i (Crossing.segments xs ++ rest)).Misses d := by
  induction xs generalizing r i with
  | nil =>
    obtain rfl := hspells
    exact .inl ⟨i, fun other => ⟨fun hother => hother.2.symm, fun hother => ⟨rfl, hother.symm⟩⟩, hi, rfl⟩
  | cons x xs ih =>
    obtain ⟨rel, target, hrelated, hlength, hspells⟩ := hspells
    have hresource := Schema.resource?_of_target? (related_eq_ok hrelated).2
    have hleads : ∀ c, svc.Leads ctx d.store.tables last c r i (x :: xs) ↔
        ∃ child, svc.Crosses ctx d.store.tables r i rel target x.member child ∧
          svc.Leads ctx d.store.tables last c target child xs := by
      refine fun c => ⟨?_, fun ⟨child, hstep, hc⟩ => ⟨rel, target, child, hrelated, hstep, hc⟩⟩
      rintro ⟨rel', target', child, hrelated', hstep, hc⟩
      cases hrelated.symm.trans hrelated'
      exact ⟨child, hstep, hc⟩
    have hsegments : Crossing.segments (x :: xs) ++ rest =
        x.relationship :: (x.member ++ (Crossing.segments xs ++ rest)) := by
      simp [Crossing.segments]
    simp only [hleads, hsegments]
    rcases follow_crossing h hr hi hrelated path hlength hgoes.ne_nil with
      ⟨child, hfits, hchild, hon⟩ | ⟨hnone, hmissing⟩
    · simp only [hchild, exists_eq_left, hon, Serving.Misses]
      exact ih hresource hfits hspells hgoes.tail
    · exact .inr ⟨fun c ⟨child, hcrosses, _⟩ => hnone child hcrosses, hmissing⟩

/-- What a nested path leads to. Behind crossings that go on there is one entity at most, reached from
visible entities by visible members and by the least members of to-one relationships: then the path leads
where a path leads that starts there, and otherwise nothing is found. A to-one relationship at the end is
what the path leads to, with its least visible member if there is any. -/
theorem route_nested {path : String} {r last : Resource} {i : Identity} {named rest : List String}
    {xs : List Crossing} {d : Desk} (h : svc.Settled ctx d.store.tables)
    (hr : svc.schema.resource? r.name = some r) (hnamed : r.parseIdentity? named = some i)
    (hpath : segmentsOf path = r.name :: (named ++ (Crossing.segments xs ++ rest)))
    (hspells : svc.Spells last r xs) :
    (GoesOn xs rest →
      (∃ c, (∀ other, svc.Leads ctx d.store.tables last other r i xs ↔ other = c) ∧
        ∀ direct spelled, segmentsOf direct = last.name :: (spelled ++ rest) →
          last.parseIdentity? spelled = some c →
          ∀ route after, (svc.route ctx path).on d = (.ok route, after) ↔
            (svc.route ctx direct).on d = (.ok route, after)) ∨
      (∀ c, ¬svc.Leads ctx d.store.tables last c r i xs) ∧ (svc.route ctx path).Misses d) ∧
    ∀ c name rel target, rest = [name] → svc.related last name = .ok (rel, target) → rel.isMany = false →
      svc.Leads ctx d.store.tables last c r i xs →
      (svc.Visible ctx d.store.tables last c → ∃ found,
        svc.LeastMember ctx d.store.tables last c rel target found ∧
        (svc.route ctx path).on d = (.ok (.toOne last c name (found.map (target, ·))), d)) ∧
      (¬svc.Visible ctx d.store.tables last c → (svc.route ctx path).Misses d) := by
  have hi : r.Fits i := Resource.fits_of_parseIdentity? (h.exact _ _ hr) hnamed
  have hlast := hspells.resource? hr
  have hfollow : (svc.route ctx path).on d = _ := route_on_entity hr hpath hnamed d
  have hcrossings := fun hgoes : GoesOn xs rest => follow_crossings h path hr hi hspells hgoes
  unfold Serving.Misses at hcrossings ⊢
  rw [hfollow]
  refine ⟨fun hgoes => ?_, fun c name rel target hrest hrelated hone hleads => ?_⟩
  · rcases hcrossings hgoes with ⟨c, hc, -, hon⟩ | hnone
    · refine .inl ⟨c, hc, fun direct spelled hdirect hspelled route after => ?_⟩
      rw [hon, route_on_entity hlast hdirect hspelled]
      exact agrees_follow path direct last c rest d after route
    · exact .inr hnone
  · have hgoes : GoesOn xs rest := fun hnil => absurd (hrest.symm.trans hnil) (List.cons_ne_nil _ _)
    rcases hcrossings hgoes with ⟨found, hc, hfits, hon⟩ | ⟨hnone, -⟩
    swap
    · exact absurd hleads (hnone c)
    obtain rfl := (hc c).1 hleads
    rw [hon, hrest]
    refine ⟨fun hvisible => ?_, fun hhidden => ?_⟩
    · obtain ⟨member, hleast, hroute⟩ := follow_one h hlast hfits hrelated path [] hone hvisible
      exact ⟨member, hleast, hroute⟩
    · exact ⟨last.name, c.key, follow_of_hidden h hlast hfits hrelated path [] hhidden⟩

end Service

namespace Music

def teamDesk : Desk := ⟨⟨staffTables employeeRows, 0⟩, []⟩

theorem resource_employees : staffService.schema.resource? employees.name = some employees := rfl

theorem filedFitting_staffTables : (staffTables employeeRows).FiledFitting employees := by
  have hfiled : (staffTables employeeRows).Filed staff.schema := filed_staffTables (by decide)
  have hfits : ∀ record ∈ (staffTables employeeRows).rowsOf "employees",
      ((employees.identityOf? record).all fun i => i.values.length = 1 && i.values.all FieldType.integer.admits)
        = true := by decide
  intro key record hrow
  obtain ⟨i, hi, hkey⟩ := hfiled "employees" key employees record resource_employees hrow
  have hvalues := hfits record (Tables.mem_rowsOf.2 ⟨key, hrow⟩)
  rw [hi, Option.all_some, Bool.and_eq_true, decide_eq_true_iff, List.length_eq_one_iff] at hvalues
  obtain ⟨⟨v, hv⟩, hadmits⟩ := hvalues
  refine ⟨i, hi, hkey, ?_⟩
  rw [Resource.Fits, hv]
  rw [hv] at hadmits
  exact .cons (List.all_eq_true.1 hadmits v List.mem_cons_self) .nil

theorem settled_staff : staffService.Settled (asUser 2) teamDesk.store.tables where
  compiles _ _ hr := by
    obtain ⟨rfl, rfl⟩ := resource_staff hr
    exact ⟨_, required_staff⟩
  exact _ _ hr := by
    obtain ⟨rfl, rfl⟩ := resource_staff hr
    decide
  filed _ _ hr := by
    obtain ⟨rfl, rfl⟩ := resource_staff hr
    exact filedFitting_staffTables

theorem fits_employee (n : Int) (h : (Number.int n).toInt64?.isSome = true) :
    employees.Fits ⟨[.int n]⟩ := .cons h .nil

/-- The second employee sees herself. -/
theorem visible_second : staffService.Visible (asUser 2) teamDesk.store.tables employees ⟨[.int 2]⟩ :=
  (settled_staff.isVisible_iff resource_employees (fits_employee 2 rfl)).1 rfl

theorem route_title_of_third :
    (staffService.route (asUser 2) "/employees/3/title").on teamDesk =
      (.ok (.field employees ⟨[.int 3]⟩ "title"), teamDesk) := by
  have hpath : Service.segmentsOf "/employees/3/title" = employees.name :: (["3"] ++ ["title"]) := rfl
  have hthird : employees.parseIdentity? ["3"] = some ⟨[.int 3]⟩ := rfl
  have htitle : (employees.field? "title").isSome = true := rfl
  rw [Service.route_on_entity resource_employees hpath hthird, Service.follow, if_pos htitle]
  rfl

/-- Who reports to the second employee is found by way of her. -/
theorem route_report :
    (staffService.route (asUser 2) "/employees/2/reports/3/title").on teamDesk =
      (.ok (.field employees ⟨[.int 3]⟩ "title"), teamDesk) := by
  obtain ⟨row, hshows, hrow⟩ := visible_second
  have hrelated : staffService.related employees "reports" = .ok (employees.relationships[1], employees) := rfl
  have hspells : staffService.Spells employees employees [⟨"reports", ["3"]⟩] :=
    ⟨_, _, hrelated, rfl, rfl⟩
  have hmember : staffService.VisibleMember (asUser 2) teamDesk.store.tables employees ⟨[.int 2]⟩
      employees.relationships[1] employees ⟨[.int 3]⟩ := by
    obtain ⟨found, hon, hfound⟩ := settled_staff.hasMember_on rfl resource_employees hrelated hshows.1 hrow
      (fits_employee 3 rfl)
    have hyes : ((staffService.hasMember (asUser 2) employees ⟨[.int 2]⟩ "reports" ⟨[.int 3]⟩).on
        teamDesk).1.toOption = some true := by decide +kernel
    rw [hon] at hyes
    exact hfound.1 (Option.some.inj hyes)
  have hleads : staffService.Leads (asUser 2) teamDesk.store.tables employees ⟨[.int 3]⟩ employees ⟨[.int 2]⟩
      [⟨"reports", ["3"]⟩] :=
    ⟨_, _, _, hrelated, ⟨visible_second, rfl, hmember⟩, rfl, rfl⟩
  have hsecond : employees.parseIdentity? ["2"] = some ⟨[.int 2]⟩ := rfl
  have hpath : Service.segmentsOf "/employees/2/reports/3/title" =
      employees.name :: (["2"] ++ (Crossing.segments [⟨"reports", ["3"]⟩] ++ ["title"])) := by decide +kernel
  have hnested := (Service.route_nested settled_staff resource_employees hsecond hpath hspells).1
  rcases hnested nofun with ⟨c, hc, hroute⟩ | ⟨hnone, -⟩
  · obtain rfl := (hc _).1 hleads
    exact (hroute "/employees/3/title" ["3"] (by decide +kernel) rfl _ _).2 route_title_of_third
  · exact absurd hleads (hnone _)

/-- The manager of the second employee is hidden from her; to ask for him is no error. -/
theorem manager_hidden :
    ¬((∀ c, ¬staffService.Leads (asUser 2) teamDesk.store.tables employees c employees ⟨[.int 2]⟩
        [⟨"manager", []⟩]) →
      (staffService.route (asUser 2) "/employees/2/manager").Misses teamDesk) := by
  intro hmisses
  obtain ⟨row, hshows, hrow⟩ := visible_second
  have hrelated : staffService.related employees "manager" = .ok (employees.relationships[0], employees) := rfl
  obtain ⟨found, hon, hleast⟩ :=
    settled_staff.relatedIdentity_on rfl resource_employees hrelated hshows.1 hrow
  have hnone : ((staffService.relatedIdentity (asUser 2) employees ⟨[.int 2]⟩ "manager").on
      teamDesk).1.toOption.any Option.isNone = true := by decide +kernel
  have hok : ((staffService.route (asUser 2) "/employees/2/manager").on teamDesk).1.isOk = true := by
    decide +kernel
  rw [hon] at hnone
  obtain rfl := Option.isNone_iff_eq_none.1 hnone
  obtain ⟨resource, what, hmiss⟩ := hmisses <| by
    rintro c ⟨rel, target, child, hrel, ⟨-, hchild⟩, -⟩
    cases hrelated.symm.trans hrel
    exact hleast child hchild.1
  rw [hmiss] at hok
  cases hok

end Music

end NestedResources
