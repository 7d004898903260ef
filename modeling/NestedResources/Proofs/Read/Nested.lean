import NestedResources.Proofs.Dict
import NestedResources.Proofs.Filter.Meaning
import NestedResources.Proofs.Query.Embeds
import NestedResources.Proofs.Store.Order

/-!
# Embedding by recursion

What a query embeds, told without fetches: at every path, a row carries the members of each embedded
relationship that the embed shows, and each member carries its own in the same way. What is carried
depends on the embeds by path alone, not on their order (`Embeds.nested_congr`).
-/
namespace NestedResources

/-- Members of a relationship as they are carried: all of them, or the first of a to-one
relationship. -/
def Relationship.arrange (rel : Relationship) (rows : List Row) : Related :=
  if rel.isMany then .many rows
  else match rows with
    | [] => .absent
    | row :: _ => .one row

/-- The members that an embed shows: those that its filter and the gate let pass, sorted by its sorts
and then by identity, inside its window. -/
def Embed.shown (e : Embed) (t : Tables) (schema : Schema) (sees : Resource → Record → Bool)
    (r : Resource) (record : Record) (rel : Relationship) (target : Resource) : List Record :=
  e.window.apply (Sorting.sort (Record.compare target (target.columns e.sorts))
    ((t.members schema r record rel).filter fun member =>
      e.filter.all (·.holds t schema sees target member) && sees target member))

namespace Embeds

variable (t : Tables) (schema : Schema) (sees : Resource → Record → Bool)

/-- A row of `r` with everything that is embedded below a path. -/
def nested (es : Embeds) (r : Resource) (path : List String) (record : Record) : Row :=
  .mk record (Entries.ofList ((es.childrenOf path).attach.map fun ⟨e, _⟩ =>
    (e.path.getLastD "", match schema.step? r (e.path.getLastD "") with
      | none => .absent
      | some (rel, target) => rel.arrange
        ((e.shown t schema sees r record rel target).map (nested es target e.path)))))
termination_by es.height - path.length
decreasing_by
  rename_i he
  obtain ⟨hm, name, hname⟩ := mem_childrenOf.1 he
  exact height_sub_lt hm hname

/-- What a row carries for an embed. -/
def carried (es : Embeds) (r : Resource) (record : Record) (e : Embed) : Related :=
  match schema.step? r (e.path.getLastD "") with
  | none => .absent
  | some (rel, target) => rel.arrange
    ((e.shown t schema sees r record rel target).map (nested t schema sees es target e.path))

theorem nested_eq (es : Embeds) (r : Resource) (path : List String) (record : Record) :
    nested t schema sees es r path record = .mk record (Entries.ofList ((es.childrenOf path).map
      fun e => (e.path.getLastD "", carried t schema sees es r record e))) := by
  rw [nested]
  congr 2
  exact List.attach_map_val (f := fun e => (e.path.getLastD "", carried t schema sees es r record e))

/-! ## What is carried, by name -/

variable {t schema sees}

@[simp] theorem record_nested (es : Embeds) (r : Resource) (path : List String) (record : Record) :
    (nested t schema sees es r path record).record = record := by
  rw [nested_eq]
  rfl

theorem ordered_nested (es : Embeds) (r : Resource) (path : List String) (record : Record) :
    Entries.Ordered (nested t schema sees es r path record).related := by
  rw [nested_eq]
  exact .ofList _

/-- A row carries under a name what the embed of the longer path says. -/
theorem get?_nested {es : Embeds} (h : es.paths.Nodup) (r : Resource) (path : List String)
    (record : Record) (name : String) :
    Entries.get? name (nested t schema sees es r path record).related
      = (es.get? (path ++ [name])).map (carried t schema sees es r record) := by
  rw [nested_eq, ← find?_childrenOf h]
  exact Entries.get?_ofList_map (nodup_names h path) _ name

/-- Rows are the same if they carry the same under every name. -/
theorem eq_of_get? {row other : Row} (hrecord : row.record = other.record)
    (hrow : Entries.Ordered row.related) (hother : Entries.Ordered other.related)
    (h : ∀ name, Entries.get? name row.related = Entries.get? name other.related) : row = other := by
  obtain ⟨record, related⟩ := row
  obtain ⟨record', related'⟩ := other
  cases hrecord
  rw [show related = related' from hrow.ext hother h]

/-- Two sets of embeds show the same below a path that starts at `root`. -/
def Agree (t : Tables) (schema : Schema) (sees : Resource → Record → Bool) (root : Resource)
    (path : List String) (es fs : Embeds) : Prop :=
  ∀ start, path <+: start → ∀ parent, schema.at? root start = some parent → ∀ name,
    (es.get? (start ++ [name])).isSome = (fs.get? (start ++ [name])).isSome ∧
      ∀ e f, es.get? (start ++ [name]) = some e → fs.get? (start ++ [name]) = some f →
        ∀ rel target, schema.step? parent name = some (rel, target) →
          ∀ record, e.shown t schema sees parent record rel target
            = f.shown t schema sees parent record rel target

theorem agree_of_get?_eq {root : Resource} {path : List String} {es fs : Embeds}
    (h : ∀ start name, path <+: start → es.get? (start ++ [name]) = fs.get? (start ++ [name])) :
    Agree t schema sees root path es fs := by
  intro start hstart parent _ name
  refine ⟨by rw [h start name hstart], fun e f he hf => ?_⟩
  rw [h start name hstart, hf] at he
  cases he
  exact fun _ _ _ _ => rfl

/-- What is embedded below a path depends on what the embeds there show. -/
theorem nested_congr {es fs : Embeds} (hes : es.paths.Nodup) (hfs : fs.paths.Nodup) {root r : Resource}
    {path : List String} (hat : schema.at? root path = some r)
    (h : Agree t schema sees root path es fs) (record : Record) :
    nested t schema sees es r path record = nested t schema sees fs r path record := by
  obtain ⟨n, hn⟩ : ∃ n, es.height - path.length = n := ⟨_, rfl⟩
  induction n using Nat.strongRecOn generalizing r path record with
  | ind n ih =>
    refine eq_of_get? (by simp) (ordered_nested ..) (ordered_nested ..) fun name => ?_
    rw [get?_nested hes, get?_nested hfs]
    obtain ⟨hsome, hshown⟩ := h path (List.prefix_refl path) r hat name
    cases he : es.get? (path ++ [name]) with
    | none =>
      rw [he, Option.isSome_none, eq_comm, Option.isSome_eq_false_iff, Option.isNone_iff_eq_none]
        at hsome
      rw [hsome]
      rfl
    | some e =>
      rw [he, Option.isSome_some, eq_comm, Option.isSome_iff_exists] at hsome
      obtain ⟨f, hf⟩ := hsome
      obtain ⟨hm, hpath⟩ := (get?_eq_some_iff hes).1 he
      obtain ⟨-, hpath'⟩ := (get?_eq_some_iff hfs).1 hf
      have hlt := height_sub_lt hm hpath
      rw [hpath, hn] at hlt
      have hname : (path ++ [name]).getLastD "" = name := by simp
      simp only [hf, Option.map_some, carried, hpath, hpath', hname]
      cases hstep : schema.step? r name with
      | none => rfl
      | some x =>
        obtain ⟨rel, target⟩ := x
        have htarget : schema.at? root (path ++ [name]) = some target := by
          rw [Schema.at?_concat hat, hstep]
          rfl
        have hbelow : Agree t schema sees root (path ++ [name]) es fs := fun start hstart =>
          h start ((List.prefix_append path [name]).trans hstart)
        have hmember : nested t schema sees es target (path ++ [name])
            = nested t schema sees fs target (path ++ [name]) := by
          funext member
          exact ih _ hlt htarget hbelow member rfl
        simp only [hshown e f he hf rel target hstep, hmember]

/-- What a row carries for an embed depends on what the embeds below it show. -/
theorem carried_congr {es fs : Embeds} (hes : es.paths.Nodup) (hfs : fs.paths.Nodup)
    {root r : Resource} {path : List String} (hat : schema.at? root path = some r) {e : Embed}
    {name : String} (hpath : e.path = path ++ [name]) (h : Agree t schema sees root e.path es fs)
    (record : Record) : carried t schema sees es r record e = carried t schema sees fs r record e := by
  have hname : e.path.getLastD "" = name := by rw [hpath]; simp
  unfold carried
  rw [hname]
  cases hstep : schema.step? r name with
  | none => rfl
  | some x =>
    obtain ⟨rel, target⟩ := x
    have htarget : schema.at? root e.path = some target := by
      rw [hpath, Schema.at?_concat hat, hstep]
      rfl
    simp only [funext (nested_congr hes hfs htarget h)]

end Embeds

end NestedResources
