import NestedResources.Proofs.Query.EmbedOptions

/-!
# Embeds by calls

Paths are embedded by calls, one after the other: a path is asked for, or embedded where it is missing,
and the options of an embed are changed in between. Every path stays single and its prefixes are embedded
too; whatever was embedded stays in its place with its options, and only the path that is asked for is
noted as explicit. Embeds that were put together in any other way are validated, which refuses empty and
repeated paths and adds the prefixes that are missing (`Embeds.single_and_closed`).
-/
namespace NestedResources

namespace Embeds

variable {es fs gs : Embeds} {path start : List String}

/-! ## Embeds behind others -/

/-- Whether a path is embedded along with another one: as a prefix of it, up to itself and without the
root. -/
def Along (path start : List String) : Prop := start ≠ [] ∧ start <+: path

/-- Further embeds behind those that are there: an implied one, without options, for each path that `new`
tells and that is not embedded yet. -/
def Adds (es fs : Embeds) (new : List String → Prop) : Prop :=
  ∃ added : List (List String), fs.list = es.list ++ added.map (fun start => { path := start }) ∧
    added.Nodup ∧ ∀ start, start ∈ added ↔ new start ∧ start ∉ es.paths

namespace Adds

variable {new more : List String → Prop}

theorem paths_eq {added : List (List String)}
    (h : fs.list = es.list ++ added.map (fun start => { path := start })) : fs.paths = es.paths ++ added := by
  rw [paths, h, List.map_append, List.map_map]
  exact congrArg (es.paths ++ ·) (List.map_id added)

theorem mem_paths_iff (h : es.Adds fs new) : start ∈ fs.paths ↔ start ∈ es.paths ∨ new start := by
  obtain ⟨added, hlist, -, hadded⟩ := h
  rw [paths_eq hlist, List.mem_append, hadded]
  tauto

theorem nodup_paths (h : es.Adds fs new) (hsingle : es.paths.Nodup) : fs.paths.Nodup := by
  obtain ⟨added, hlist, hnodup, hadded⟩ := h
  rw [paths_eq hlist]
  refine hsingle.append hnodup fun start hstart hnew => ?_
  exact ((hadded start).1 hnew).2 hstart

theorem congr (h : es.Adds fs new) (hnew : ∀ start, new start ↔ more start) : es.Adds fs more := by
  obtain ⟨added, hlist, hnodup, hadded⟩ := h
  exact ⟨added, hlist, hnodup, fun start => by rw [hadded, hnew]⟩

theorem refl (es : Embeds) : es.Adds es fun _ => False := ⟨[], by simp, .nil, by simp⟩

theorem trans (h : es.Adds fs new) (k : fs.Adds gs more) :
    es.Adds gs fun start => new start ∨ more start := by
  have hmem : ∀ start, start ∈ fs.paths ↔ start ∈ es.paths ∨ new start := fun _ => h.mem_paths_iff
  obtain ⟨added, hlist, hnodup, hadded⟩ := h
  obtain ⟨others, hothers, hnodupOthers, hmore⟩ := k
  refine ⟨added ++ others, ?_, ?_, fun start => ?_⟩
  · rw [hothers, hlist, List.map_append, List.append_assoc]
  · refine hnodup.append hnodupOthers fun start hstart hother => ?_
    exact ((hmore start).1 hother).2 ((hmem start).2 (.inr ((hadded start).1 hstart).1))
  · rw [List.mem_append, hadded, hmore, hmem]
    tauto

/-- Steps that each add embeds add them all together. -/
theorem foldl {α : Type} {f : Embeds → α → Embeds} {new : α → List String → Prop} {items : List α}
    (hstep : ∀ a ∈ items, ∀ es : Embeds, es.Adds (f es a) (new a)) (es : Embeds) :
    es.Adds (items.foldl f es) fun start => ∃ a ∈ items, new a start := by
  induction items generalizing es with
  | nil => exact (refl es).congr (by simp)
  | cons a items ih =>
    rw [List.foldl_cons]
    refine ((hstep a List.mem_cons_self es).trans
      (ih (fun b hb => hstep b (List.mem_cons_of_mem a hb)) _)).congr fun start => ?_
    simp only [List.mem_cons, exists_eq_or_imp]

end Adds

theorem adds_imply (es : Embeds) (path : List String) : es.Adds (es.imply path) (· = path) := by
  unfold imply
  split
  · rename_i hc
    rw [contains_iff] at hc
    exact ⟨[], by simp, .nil, fun start => by simpa using fun h => h ▸ hc⟩
  · rename_i hc
    rw [contains_iff] at hc
    refine ⟨[path], rfl, List.nodup_singleton path, fun start => ?_⟩
    rw [List.mem_singleton]
    exact ⟨fun h => ⟨h, h ▸ hc⟩, And.left⟩

/-- Embedding a path adds what is missing along it. -/
theorem adds_ensure (hpath : path ≠ []) (es : Embeds) : es.Adds (es.ensure path) (Along path) := by
  rw [ensure, parents_append_self hpath]
  refine (Adds.foldl (fun start _ es => adds_imply es start) es).congr fun start => ?_
  simp only [List.mem_map, List.mem_range, exists_exists_and_eq_and]
  constructor
  · rintro ⟨n, hn, rfl⟩
    exact ⟨List.ne_nil_of_length_pos (by rw [List.length_take]; omega), List.take_prefix _ _⟩
  · rintro ⟨hne, hprefix⟩
    have hpos := List.length_pos_iff.2 hne
    have hle := hprefix.length_le
    refine ⟨start.length - 1, by omega, ?_⟩
    rw [show start.length - 1 + 1 = start.length by omega]
    exact List.prefix_iff_eq_take.1 hprefix

/-- With all that is missing along their paths, single paths are sound. -/
theorem Adds.sound (h : es.Adds fs fun start => ∃ path ∈ es.paths, Along path start)
    (hsingle : es.paths.Nodup) (hnonempty : [] ∉ es.paths) : fs.Sound fun _ => True := by
  refine ⟨h.nodup_paths hsingle, fun hnil => ?_, fun path hpath start hne hstart => ?_, fun _ _ => trivial⟩
  · rcases h.mem_paths_iff.1 hnil with hold | ⟨path, -, hne, -⟩
    · exact hnonempty hold
    · exact hne rfl
  · refine h.mem_paths_iff.2 (.inr ?_)
    rcases h.mem_paths_iff.1 hpath with hold | ⟨longer, hlonger, -, halong⟩
    · exact ⟨path, hold, hne, hstart⟩
    · exact ⟨longer, hlonger, hne, hstart.trans halong⟩

/-! ## Validation -/

/-- Embeds whose paths are single and not empty are filled up, all others are refused. -/
theorem validate_cases (es : Embeds) :
    (([] ∈ es.paths ∨ ¬es.paths.Nodup) ∧ ∃ e, es.validate = .error e) ∨
      ([] ∉ es.paths ∧ es.paths.Nodup ∧ es.validate = .ok (es.paths.foldl ensure es)) := by
  unfold validate
  cases hfault : fault? [] es.list with
  | none =>
    obtain ⟨hsingle, hnonempty⟩ := fault?_eq_none_iff.1 hfault
    exact .inr ⟨fun hnil => (hnonempty [] hnil).1 rfl, hsingle, rfl⟩
  | some e =>
    refine .inl ⟨by_contra fun hsound => ?_, e, rfl⟩
    rw [not_or, not_not] at hsound
    have hnone : fault? [] es.list = none :=
      fault?_eq_none_iff.2 ⟨hsound.2, fun path hpath => ⟨fun h => hsound.1 (h ▸ hpath), List.not_mem_nil⟩⟩
    rw [hnone] at hfault
    cases hfault

/-! ## Changes in place -/

/-- Where paths are single, a change of the first embed of a path is one of every embed of it. -/
theorem list_modify (h : es.paths.Nodup) (f : Embed → Embed) :
    (es.modify path f).list = es.list.map fun e => if e.path = path then f e else e := by
  suffices hlist : ∀ l : List Embed, (l.map Embed.path).Nodup →
      modifyFirst path f l = l.map fun e => if e.path = path then f e else e from hlist es.list h
  intro l
  induction l with
  | nil => exact fun _ => rfl
  | cons e l ih =>
    intro hnodup
    obtain ⟨hnew, hrest⟩ := List.nodup_cons.1 hnodup
    rw [modifyFirst, List.map_cons]
    split
    · rename_i he
      have hothers : ∀ d ∈ l, d.path ≠ path := fun d hd hpath =>
        hnew (he.trans hpath.symm ▸ List.mem_map_of_mem hd)
      rw [List.map_congr_left fun d hd => if_neg (hothers d hd), List.map_id']
    · rw [ih hrest]

end Embeds

/-! ## Calls -/

/-- A change of the options of an embed. Its path and whether it was asked for stay. -/
structure OptionChange where
  apply : Embed → Embed
  path_apply : ∀ e, (apply e).path = e.path
  explicit_apply : ∀ e, (apply e).explicit = e.explicit

/-- What is done to embeds, one after the other. -/
inductive EmbedCall where
  | request (path : List String)
  | ensure (path : List String)
  | alter (path : List String) (change : OptionChange)

namespace EmbedCall

def path : EmbedCall → List String
  | request path | ensure path | alter path _ => path

/-- The embeds after a call. A request that is refused leaves them as they are. -/
def after (es : Embeds) : EmbedCall → Embeds
  | request path => (es.request path).toOption.getD es
  | ensure path => es.ensure path
  | alter path change => es.modify path change.apply

/-- The embeds after calls from the start on. -/
def embeds (calls : List EmbedCall) : Embeds := calls.foldl after .empty

end EmbedCall

namespace Embeds

variable {es : Embeds} {path : List String} {calls : List EmbedCall}

/-- Notes that a path was asked for. -/
def mark (path : List String) (e : Embed) : Embed := if e.path = path then { e with explicit := true } else e

theorem any_explicit_get? (es : Embeds) (path : List String) :
    (es.get? path).any (·.explicit) = (es.optionsAt path).explicit := by
  unfold optionsAt
  cases es.get? path <;> rfl

/-- A path that was asked for is refused, and the embeds stay as they are. -/
theorem request_of_explicit (h : (es.optionsAt path).explicit = true) :
    es.request path = .error (.duplicateEmbed (Text.join "." path)) ∧ (EmbedCall.request path).after es = es := by
  have hrefused : es.request path = .error (.duplicateEmbed (Text.join "." path)) := by
    rw [request, any_explicit_get?, if_pos h]
  refine ⟨hrefused, ?_⟩
  rw [EmbedCall.after, hrefused]
  rfl

/-- A path that was not asked for is embedded where it is missing, and marked. -/
theorem request_of_implicit (h : ¬(es.optionsAt path).explicit = true) :
    es.request path = .ok ((EmbedCall.request path).after es) ∧
      (EmbedCall.request path).after es = (es.ensure path).modify path fun e => { e with explicit := true } := by
  have hok : es.request path = .ok ((es.ensure path).modify path fun e => { e with explicit := true }) := by
    rw [request, any_explicit_get?, if_neg h]
  rw [EmbedCall.after, hok]
  exact ⟨rfl, rfl⟩

/-- Sound embeds that tell which paths were asked for. -/
structure Records (calls : List EmbedCall) (es : Embeds) : Prop where
  sound : es.Sound fun _ => True
  explicit : ∀ path, (es.optionsAt path).explicit = true ↔ .request path ∈ calls

theorem Records.empty : Records [] .empty := ⟨.empty, fun path => by simp [optionsAt, get?, Embeds.empty]⟩

/-- A call keeps embeds sound, and what was asked for is recorded. -/
theorem Records.after (h : es.Records calls) (c : EmbedCall) (hpath : c.path ≠ []) :
    (c.after es).Records (calls ++ [c]) := by
  cases c with
  | ensure path =>
    refine ⟨h.sound.ensure hpath fun _ _ _ => trivial, fun other => ?_⟩
    rw [EmbedCall.after, optionsAt_ensure, h.explicit]
    simp
  | alter path change =>
    refine ⟨h.sound.modify change.path_apply fun _ _ _ => trivial, fun other => ?_⟩
    have hsame : ((es.modify path change.apply).optionsAt other).explicit = (es.optionsAt other).explicit := by
      rw [optionsAt, get?_modify change.path_apply, optionsAt]
      split
      · cases es.get? other <;> simp [change.explicit_apply]
      · rfl
    rw [EmbedCall.after, hsame, h.explicit]
    simp
  | request path =>
    by_cases hasked : (es.optionsAt path).explicit = true
    · rw [(request_of_explicit hasked).2]
      refine ⟨h.sound, fun other => ?_⟩
      rw [h.explicit, List.mem_append, List.mem_singleton, EmbedCall.request.injEq]
      exact ⟨.inl, fun hother => hother.elim id fun heq => heq ▸ (h.explicit path).1 hasked⟩
    · rw [(request_of_implicit hasked).2]
      refine ⟨(h.sound.ensure hpath fun _ _ _ => trivial).modify (fun _ => rfl) fun _ _ _ => trivial,
        fun other => ?_⟩
      have hmarked := @optionsAt_set (fun e => { e with explicit := true }) (fun _ => rfl) es path other
      rw [hmarked, List.mem_append, List.mem_singleton, EmbedCall.request.injEq, ← h.explicit]
      split
      · rename_i heq
        exact ⟨fun _ => .inr heq, fun _ => rfl⟩
      · rename_i hne
        exact (or_iff_left hne).symm

/-- Calls keep embeds sound, and what was asked for is recorded. -/
theorem Records.foldl {done : List EmbedCall} (h : es.Records done) (hpaths : ∀ c ∈ calls, c.path ≠ []) :
    (calls.foldl EmbedCall.after es).Records (done ++ calls) := by
  induction calls generalizing done es with
  | nil => rwa [List.append_nil]
  | cons c calls ih =>
    rw [List.append_cons, List.foldl_cons]
    exact ih (h.after c (hpaths c List.mem_cons_self)) fun d hd => hpaths d (List.mem_cons_of_mem c hd)

/-- Single paths with all their prefixes. After any calls every path is single, and its prefixes are
embedded too. The next call appends what is missing along its path: a path that was not asked for before
is marked, and one that was is refused. Other embeds are refused iff a path is empty or repeated; else what
is missing along their paths is appended, which makes them sound as well. -/
theorem single_and_closed :
    (∀ calls : List EmbedCall, (∀ c ∈ calls, c.path ≠ []) →
      ∀ es, es = EmbedCall.embeds calls → (es.Sound fun _ => True) ∧
        ∀ path, path ≠ [] → es.Adds (es.ensure path) (Along path) ∧
          (.request path ∈ calls → es.request path = .error (.duplicateEmbed (Text.join "." path)) ∧
            (EmbedCall.request path).after es = es) ∧
          (.request path ∉ calls → es.request path = .ok ((EmbedCall.request path).after es) ∧
            ((EmbedCall.request path).after es).list = (es.ensure path).list.map (mark path))) ∧
    ∀ es : Embeds, ((∃ e, es.validate = .error e) ↔ [] ∈ es.paths ∨ ¬es.paths.Nodup) ∧
      ∀ next, es.validate = .ok next → (next.Sound fun _ => True) ∧
        es.Adds next fun start => ∃ path ∈ es.paths, Along path start := by
  constructor
  · intro calls hpaths es hes
    have hrecords : es.Records calls := hes ▸ Records.empty.foldl hpaths
    refine ⟨hrecords.sound, fun path hpath => ⟨adds_ensure hpath es, fun hasked => ?_, fun hnew => ?_⟩⟩
    · exact request_of_explicit ((hrecords.explicit path).2 hasked)
    · obtain ⟨hok, hafter⟩ := request_of_implicit (mt (hrecords.explicit path).1 hnew)
      refine ⟨hok, ?_⟩
      rw [hafter]
      exact list_modify ((adds_ensure hpath es).nodup_paths hrecords.sound.single) _
  · intro es
    rcases es.validate_cases with ⟨hfaulty, e, he⟩ | ⟨hnonempty, hsingle, hok⟩
    · exact ⟨⟨fun _ => hfaulty, fun _ => ⟨e, he⟩⟩, fun next hnext => by rw [he] at hnext; cases hnext⟩
    · have hadds : es.Adds (es.paths.foldl ensure es) fun start => ∃ path ∈ es.paths, Along path start :=
        .foldl (fun path hpath es => adds_ensure (fun hnil => hnonempty (hnil ▸ hpath)) es) es
      refine ⟨⟨?_, ?_⟩, fun next hnext => ?_⟩
      · rintro ⟨e, he⟩
        rw [hok] at he
        cases he
      · rintro (hnil | hrepeated)
        · exact absurd hnil hnonempty
        · exact absurd hsingle hrepeated
      · rw [hok] at hnext
        cases hnext
        exact ⟨hadds.sound hsingle hnonempty, hadds⟩

end Embeds

namespace Music

/-- The first two tracks only. -/
def firstTwo : OptionChange := ⟨fun e => { e with window := ⟨0, some 2⟩ }, fun _ => rfl, fun _ => rfl⟩

/-- The genres of tracks, then the tracks themselves, which were embedded for the genres. -/
def trackCalls : List EmbedCall :=
  [.request ["tracks", "genre"], .alter ["tracks"] firstTwo, .ensure ["tracks"], .request ["tracks"]]

/-- The tracks are asked for once, and keep their window. -/
theorem tracks_requested :
    ((∀ c ∈ trackCalls, c.path ≠ []) ∧ .request ["tracks"] ∈ trackCalls ∧ .request ["artist"] ∉ trackCalls) ∧
      (EmbedCall.embeds trackCalls).request ["tracks"] = .error (.duplicateEmbed "tracks") ∧
      (∃ next, (EmbedCall.embeds trackCalls).request ["artist"] = .ok next ∧
        next.list = [{ path := ["tracks"], explicit := true, window := ⟨0, some 2⟩ },
          { path := ["tracks", "genre"], explicit := true }, { path := ["artist"], explicit := true }]) ∧
      (Embeds.empty.push { path := ["tracks", "genre"] }).validate =
        .ok ⟨[{ path := ["tracks", "genre"] }, { path := ["tracks"] }]⟩ ∧
      Embeds.Sound (fun _ => True) ⟨[{ path := ["tracks", "genre"] }, { path := ["tracks"] }]⟩ := by
  have hpaths : ∀ c ∈ trackCalls, c.path ≠ [] := by simp [trackCalls, EmbedCall.path]
  have hasked : .request ["tracks"] ∈ trackCalls := by simp [trackCalls]
  have hnew : .request ["artist"] ∉ trackCalls := by simp [trackCalls]
  obtain ⟨-, hcalls⟩ := Embeds.single_and_closed.1 trackCalls hpaths _ rfl
  obtain ⟨hok, hlist⟩ := (hcalls ["artist"] (by simp)).2.2 hnew
  have hvalid : (Embeds.empty.push { path := ["tracks", "genre"] }).validate =
      .ok ⟨[{ path := ["tracks", "genre"] }, { path := ["tracks"] }]⟩ := rfl
  exact ⟨⟨hpaths, hasked, hnew⟩, ((hcalls ["tracks"] (by simp)).2.1 hasked).1, ⟨_, hok, hlist.trans rfl⟩, hvalid,
    ((Embeds.single_and_closed.2 _).2 _ hvalid).1⟩

end Music

end NestedResources
