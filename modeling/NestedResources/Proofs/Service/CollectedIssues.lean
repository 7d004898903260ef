import NestedResources.Proofs.Service.Serving
import NestedResources.Proofs.Store.Failures
import NestedResources.Proofs.Write.InTurn

/-!
# The issues of an array

An array is refused for the issues that its documents have alone, and for no other ones: each under the index
of its document, and all of them in order (`WriteOp.create_array_issues`). This takes documents that meet
different entities, and a store in which no key is taken for that of an entity that is still to be created.
-/
namespace NestedResources

/-! ## Commits have no issues to report -/

/-- Whether a computation never fails for issues. -/
def Processable {α : Type} (x : Except Error α) : Prop := ∀ found, x ≠ .error (.unprocessable found)

namespace Processable

variable {α β : Type}

theorem ok (a : α) : Processable (.ok a) := fun _ h => by cases h

theorem bind {x : Except Error α} {f : α → Except Error β} (hx : Processable x)
    (hf : ∀ a, Processable (f a)) : Processable (x >>= f) := by
  intro found h
  rcases Except.bind_eq_error.1 h with h | ⟨a, -, h⟩
  · exact hx found h
  · exact hf a found h

end Processable

theorem Store.apply_processable (s : Schema) (store : Store) (plan : Plan) : Processable (store.apply s plan) := by
  intro found h
  rcases Store.apply_eq_error h with ⟨fault, hfault⟩ | ⟨_, _, _, _, -, -, hfails⟩
  · cases hfault
  · cases hfails

/-- A walk that ends well is refused for its issues, and for no other ones. -/
theorem Serving.commit_unprocessable_iff {registry : Registry} {ctx : Context}
    {walking : WalkSite → Walking (List EntityRef)} {d : Desk} {roots : List EntityRef} {w : Walk}
    (h : (walking ⟨registry, ctx, d.store.tables⟩).run.run {} = (.ok roots, w)) {found : List Issue} :
    ((commit registry ctx walking).on d).1 = .error (.unprocessable found) ↔ w.issues ≠ [] ∧ found = w.issues := by
  by_cases hissues : w.issues = []
  · refine iff_of_false (fun herror => ?_) fun hnone => hnone.1 hissues
    have hsettle : Processable (settle registry.schema d.store roots w) := by
      unfold settle
      rw [if_pos (List.isEmpty_iff.2 hissues)]
      exact (Store.apply_processable _ _ _).bind fun _ => .ok _
    rw [commit_on h] at herror
    dsimp only [bind, Except.bind] at herror
    cases hdone : settle registry.schema d.store roots w with
    | ok done =>
      rw [hdone] at herror
      cases herror
    | error e =>
      rw [hdone] at herror
      exact hsettle found (hdone.trans (congrArg Except.error (Except.error.inj herror)))
  · rw [commit_of_issues h hissues]
    simp [hissues, eq_comm]

/-! ## Arrays -/

/-- What the walk of a request reads. -/
def Desk.site (d : Desk) (g : Registry) (ctx : Context) : WalkSite := ⟨g, ctx, d.store.tables⟩

/-- Provided that no stored entity goes by the key of one that is still to be created, that the documents meet
different entities, and that no path in them reads like that of a whole document: an array is refused for
issues if and only if some document has issues when it is created alone, and then for those of all documents,
each under the index of its document. -/
theorem WriteOp.create_array_issues {g : Registry} {ctx : Context} {d : Desk} {r : Resource}
    (hr : g.schema.resource? r.name = some r) (happart : (d.site g ctx).TellsApart) {items : List Json}
    (hitems : ∀ item ∈ items, item.isArray = false)
    (hnames : items.Pairwise fun a b => ((d.site g ctx).names r a).Disjoint ((d.site g ctx).names r b))
    (hpaths : ∀ members, Json.obj members ∈ items → PathsApart r members)
    (halone : ∀ item ∈ items, ∃ roots w,
      ((create r.name item).walk (d.site g ctx)).run.run {} = (.ok roots, w)) (found : List Issue) :
    ((Serving.commit g ctx (create r.name (.arr items)).walk).on d).1 = .error (.unprocessable found) ↔
      (∃ item ∈ items, (d.site g ctx).issuesAlone r item ≠ []) ∧
        found = (d.site g ctx).issuesOfEach r 0 items := by
  obtain ⟨roots, after, hwalk, hissues⟩ := WalkSite.create_collects happart hr hitems hnames hpaths halone
  have hcommit := @Serving.commit_unprocessable_iff g ctx (create r.name (.arr items)).walk d roots after hwalk found
  rw [hcommit, hissues, WalkSite.issuesOfEach_ne_nil]

namespace Music

/-! ## Groups with their peers -/

/-- Groups that are told by their names, and each other's peers. -/
def peerGroups : Resource where
  name := "groups"
  identity := ["name"]
  fields := [field "name" .string]
  relationships := [{
    name := "peers"
    target := "groups"
    cardinality := .manyToMany
    join := .association "peerage" "group" "peer" }]

def peering : Registry where
  schema := {
    table := .ofList [("groups", peerGroups)]
    named := by decide +kernel
    faultless := by decide +kernel }
  gates := []
  relationshipGates := []

def groupRecord (name : String) : Record := .ofList [("name", .str name)]

/-- A store with groups of these names. -/
def peeringDesk (names : List String) : Desk :=
  ⟨⟨names.foldl (fun t name => t.putRow "groups" name (groupRecord name)) .empty, 0⟩, []⟩

def createGroups (items : List Json) : Serving Outcome :=
  Serving.commit peering ⟨.empty⟩ (WriteOp.create "groups" (.arr items)).walk

/-- A group with a field that there is none of, something that is no group, and a group to which the same peer
is added twice. -/
def faultyGroups : List Json := [
  .obj [("name", .str "a"), ("rank", .int 1)],
  .int 5,
  .obj [("name", .str "b"), ("peers", .arr [
    .obj [("name", .str "s")],
    .obj [("name", .str "s"), ("$op", .str "add")]])]]

/-- No stored group goes by the key of one that is still to be created. -/
theorem peering_tellsApart : ((peeringDesk ["s"]).site peering ⟨.empty⟩).TellsApart := by
  intro r hr record hrecord i hi slot hkey
  have hentry : (r.name, r) ∈ [("groups", peerGroups)] := Dict.get?_eq_some_iff.1 hr
  obtain ⟨-, rfl⟩ := Prod.mk.inj (List.mem_singleton.1 hentry)
  have hrow : record ∈ [groupRecord "s"] := hrecord
  cases List.mem_singleton.1 hrow
  have hidentity : i = ⟨[.str "s"]⟩ := (Option.some.inj hi).symm
  rw [hidentity] at hkey
  have hlength := congrArg String.length hkey
  rw [EntityRef.key, String.length_append, show "#pending/".length = 9 from rfl,
    show (Identity.mk [.str "s"]).key.length = 1 by decide] at hlength
  omega

/-- Each of the three is refused for its own issues, the last one at the second time that the peer is added. -/
theorem faultyGroups_collected :
    ((peeringDesk ["s"]).site peering ⟨.empty⟩).TellsApart ∧
      ((createGroups faultyGroups).on (peeringDesk ["s"])).1 = .error (.unprocessable [
        (Defect.unknownField "rank" "groups").issueAt "0.rank", Defect.notAnObject.issueAt "1",
        (Defect.alreadyMember "peers").issueAt "2.peers.1"]) := by
  have halone : ∀ item ∈ faultyGroups, ∃ roots w, ((WriteOp.create "groups" item).walk
      ((peeringDesk ["s"]).site peering ⟨.empty⟩)).run.run {} = (.ok roots, w) := by
    intro item hitem
    have hok : ∀ item ∈ faultyGroups, (((WriteOp.create "groups" item).walk
        ((peeringDesk ["s"]).site peering ⟨.empty⟩)).run.run {}).1.isOk = true := by decide +kernel
    obtain ⟨roots, hroots⟩ := Except.exists_of_isOk (hok item hitem)
    exact ⟨roots, _, Prod.ext hroots rfl⟩
  have hpaths : ∀ members, Json.obj members ∈ faultyGroups → PathsApart peerGroups members := by
    have hdecided : ∀ item ∈ faultyGroups, ∀ members ∈ item.object?, (∀ m ∈ members, m.1 ≠ "$") ∧
        ∀ m ∈ members, (peerGroups.relationship? m.1).isSome = true → m.1 ≠ "" := by decide +kernel
    intro members hmembers
    obtain ⟨happart, hwalked⟩ := hdecided _ hmembers members rfl
    exact ⟨happart, by decide, hwalked⟩
  have hnames : faultyGroups.Pairwise fun a b =>
      ∀ name ∈ ((peeringDesk ["s"]).site peering ⟨.empty⟩).names peerGroups a,
        name ∉ ((peeringDesk ["s"]).site peering ⟨.empty⟩).names peerGroups b := by
    decide +kernel
  refine ⟨peering_tellsApart, (@WriteOp.create_array_issues peering ⟨.empty⟩ (peeringDesk ["s"]) peerGroups
    (by decide +kernel) peering_tellsApart faultyGroups (by decide +kernel) hnames hpaths halone _).2 ⟨?_, ?_⟩⟩
  · exact ⟨.int 5, .tail _ (.head _), by decide +kernel⟩
  · decide +kernel

/-- Two new groups, the first with a new peer. The second has a stored peer, which gets another stored one. -/
def mistakenGroups : List Json := [
  .obj [("name", .str "a"), ("peers", .arr [.obj [("name", .str "x")]])],
  .obj [("name", .str "b"), ("peers", .arr [
    .obj [("name", .str "#pending/0"), ("peers", .arr [
      .obj [("name", .str "#pending/1"), ("$op", .str "add")]])]])]]

/-- Where stored groups go by the keys of the first two entities that a plan creates, an array is refused for an
issue that none of its documents has. Each of them is created alone, and they meet different groups. -/
theorem mistakenGroups_refused :
    (∀ item ∈ mistakenGroups, ((Serving.commit peering ⟨.empty⟩ (WriteOp.create "groups" item).walk).on
      (peeringDesk ["#pending/0", "#pending/1"])).1.isOk = true) ∧
    (mistakenGroups.Pairwise fun a b =>
      (((peeringDesk ["#pending/0", "#pending/1"]).site peering ⟨.empty⟩).names peerGroups a).Disjoint
        (((peeringDesk ["#pending/0", "#pending/1"]).site peering ⟨.empty⟩).names peerGroups b)) ∧
    ((createGroups mistakenGroups).on (peeringDesk ["#pending/0", "#pending/1"])).1 =
      .error (.unprocessable [(Defect.alreadyMember "peers").issueAt "1.peers.0.peers.0"]) := by
  have hnames : mistakenGroups.Pairwise fun a b =>
      ∀ name ∈ ((peeringDesk ["#pending/0", "#pending/1"]).site peering ⟨.empty⟩).names peerGroups a,
        name ∉ ((peeringDesk ["#pending/0", "#pending/1"]).site peering ⟨.empty⟩).names peerGroups b := by
    decide +kernel
  have hok : (((WriteOp.create "groups" (.arr mistakenGroups)).walk
      ((peeringDesk ["#pending/0", "#pending/1"]).site peering ⟨.empty⟩)).run.run {}).1.isOk = true := by
    decide +kernel
  obtain ⟨roots, hroots⟩ := Except.exists_of_isOk hok
  exact ⟨by decide +kernel, hnames,
    (Serving.commit_unprocessable_iff (Prod.ext hroots rfl)).2 ⟨by decide +kernel, by decide +kernel⟩⟩

end Music

end NestedResources
