import Mathlib.Data.List.Perm.Basic
import NestedResources.Proofs.Schema.Lookup
import NestedResources.Read.Selection

/-!
# Sets of embeds

Embeds are sound if every path is single, no path is empty and the prefixes of every path are
embedded too. Looking for an embed by its path and going through the embeds below a path then find
the same. Adding and changing embeds keeps them sound.
-/
namespace NestedResources

namespace Embeds

variable {es : Embeds} {path : List String} {e : Embed}

def paths (es : Embeds) : List (List String) := es.list.map Embed.path

theorem contains_iff : es.contains path = true ↔ path ∈ es.paths := by
  simp [contains, paths]

theorem isSome_get?_iff {es : Embeds} {path : List String} :
    (es.get? path).isSome = true ↔ path ∈ es.paths := by
  rw [← contains_iff, get?, List.find?_isSome, contains, List.any_eq_true]

/-- Single paths, none of them empty, with all their prefixes, of embeds that are admitted. -/
structure Sound (admits : Embed → Prop) (es : Embeds) : Prop where
  single : es.paths.Nodup
  nonempty : [] ∉ es.paths
  closed : ∀ path ∈ es.paths, ∀ start, start ≠ [] → start <+: path → start ∈ es.paths
  admitted : ∀ e ∈ es.list, admits e

theorem Sound.path_ne_nil {admits : Embed → Prop} (h : es.Sound admits) (he : e ∈ es.list) :
    e.path ≠ [] :=
  fun hnil => h.nonempty (hnil ▸ List.mem_map_of_mem he)

/-! ## Looking for embeds -/

theorem get?_eq_some_iff (h : es.paths.Nodup) :
    es.get? path = some e ↔ e ∈ es.list ∧ e.path = path := List.find?_key_eq_some_iff h

theorem mem_childrenOf :
    e ∈ es.childrenOf path ↔ e ∈ es.list ∧ ∃ name, e.path = path ++ [name] := by
  simp only [childrenOf, List.mem_filter, Bool.and_eq_true, decide_eq_true_eq,
    List.isPrefixOf_iff_prefix]
  refine and_congr_right fun _ => ⟨fun ⟨hlength, rest, hrest⟩ => ?_, fun ⟨name, hname⟩ => ?_⟩
  · obtain ⟨name, rfl⟩ : ∃ name, rest = [name] := by
      rw [← List.length_eq_one_iff]
      rw [← hrest, List.length_append] at hlength
      omega
    exact ⟨name, hrest.symm⟩
  · simp [hname]

theorem path_eq_of_mem_childrenOf (h : e ∈ es.childrenOf path) :
    e.path = path ++ [e.path.getLastD ""] := by
  obtain ⟨-, name, hname⟩ := mem_childrenOf.1 h
  rw [hname]
  simp

/-- The names right below a path are told apart. -/
theorem nodup_names (h : es.paths.Nodup) (path : List String) :
    ((es.childrenOf path).map fun e => e.path.getLastD "").Nodup := by
  have hpaths : ((es.childrenOf path).map Embed.path).Nodup :=
    h.sublist (List.filter_sublist.map Embed.path)
  refine List.Nodup.map_on ?_ (List.Nodup.of_map _ hpaths)
  intro d hd e he hname
  refine List.inj_on_of_nodup_map hpaths hd he ?_
  rw [path_eq_of_mem_childrenOf hd, path_eq_of_mem_childrenOf he, hname]

/-- Looking by name among the embeds right below a path is looking for the longer path. -/
theorem find?_childrenOf (h : es.paths.Nodup) (path : List String) (name : String) :
    (es.childrenOf path).find? (fun e => e.path.getLastD "" = name) = es.get? (path ++ [name]) := by
  ext e
  rw [get?_eq_some_iff h, List.find?_key_eq_some_iff (nodup_names h path), mem_childrenOf]
  refine ⟨fun ⟨⟨he, other, hother⟩, hname⟩ => ⟨he, ?_⟩, fun ⟨he, hpath⟩ => ⟨⟨he, name, hpath⟩, ?_⟩⟩
  · simp_all
  · simp [hpath]

/-! ## The longest path -/

theorem depth_le_height (he : e ∈ es.list) : e.depth ≤ es.height := by
  unfold height
  suffices h : ∀ (l : List Embed) (n : Nat),
      n ≤ l.foldl (fun n e => max n e.depth) n ∧
        (e ∈ l → e.depth ≤ l.foldl (fun n e => max n e.depth) n) from (h es.list 0).2 he
  intro l
  induction l with
  | nil => simp
  | cons d l ih =>
    intro n
    have hd := (ih (max n d.depth)).1
    refine ⟨by simp only [List.foldl_cons]; omega, fun hm => ?_⟩
    rcases List.mem_cons.1 hm with rfl | hm
    · simp only [List.foldl_cons]; omega
    · exact (ih _).2 hm

theorem length_lt_height {start : List String} {name : String} (he : e ∈ es.list)
    (hpath : e.path = start ++ [name]) : start.length < es.height := by
  have hdepth := depth_le_height he
  rw [Embed.depth, hpath, List.length_append, List.length_singleton] at hdepth
  omega

/-- One level down there are fewer levels left. -/
theorem height_sub_lt {start : List String} {name : String} (he : e ∈ es.list)
    (hpath : e.path = start ++ [name]) : es.height - e.path.length < es.height - start.length := by
  have hlt := length_lt_height he hpath
  rw [hpath, List.length_append, List.length_singleton]
  omega

/-- Nothing lies below a path that is as long as the longest. -/
theorem childrenOf_eq_nil (h : es.height ≤ path.length) : es.childrenOf path = [] := by
  refine List.eq_nil_iff_forall_not_mem.2 fun e he => ?_
  obtain ⟨hm, name, hname⟩ := mem_childrenOf.1 he
  exact Nat.not_lt_of_le h (length_lt_height hm hname)

theorem height_congr {fs : Embeds} (hes : es.paths.Nodup) (hfs : fs.paths.Nodup)
    (h : ∀ path, path ∈ es.paths ↔ path ∈ fs.paths) : es.height = fs.height := by
  have hheight : ∀ es : Embeds, es.height = es.paths.foldl (fun n path => max n path.length) 0 := by
    intro es
    rw [paths, List.foldl_map]
    rfl
  rw [hheight, hheight]
  exact ((List.perm_ext_iff_of_nodup hes hfs).2 h).foldl_eq' (fun _ _ _ _ _ => by omega) 0

/-! ## A part of the embeds -/

/-- The embeds that pass a test. -/
def only (es : Embeds) (keep : Embed → Bool) : Embeds := ⟨es.list.filter keep⟩

theorem single_only (h : es.paths.Nodup) (keep : Embed → Bool) : (es.only keep).paths.Nodup :=
  h.sublist (List.filter_sublist.map Embed.path)

theorem get?_only (h : es.paths.Nodup) (keep : Embed → Bool) (path : List String) :
    (es.only keep).get? path = (es.get? path).filter keep := by
  ext e
  rw [get?_eq_some_iff (single_only h keep), Option.filter_eq_some_iff, get?_eq_some_iff h, only,
    List.mem_filter]
  tauto

theorem childrenOf_only (keep : Embed → Bool) :
    (es.only keep).childrenOf path = (es.childrenOf path).filter keep := by
  simp only [childrenOf, only, List.filter_filter]
  congr 1
  funext e
  exact Bool.and_comm _ _

/-! ## Adding and changing embeds -/

variable {admits : Embed → Prop}

@[simp] theorem mem_paths_imply {start : List String} :
    start ∈ (es.imply path).paths ↔ start = path ∨ start ∈ es.paths := by
  unfold imply
  split
  · rename_i h
    rw [contains_iff] at h
    exact ⟨.inr, fun hs => hs.elim (fun heq => heq ▸ h) id⟩
  · simp [push, paths, or_comm]

/-- A path may be added behind its prefixes. -/
theorem Sound.imply (h : es.Sound admits) (hnew : admits { path }) (hpath : path ≠ [])
    (hstart : ∀ start, start ≠ [] → start <+: path → start ≠ path → start ∈ es.paths) :
    (es.imply path).Sound admits := by
  by_cases hc : path ∈ es.paths
  · rwa [Embeds.imply, if_pos (contains_iff.2 hc)]
  · have hpush : es.imply path = es.push { path } := if_neg (mt contains_iff.1 hc)
    have hpaths : (es.imply path).paths = es.paths ++ [path] := by
      rw [hpush]
      simp [push, paths]
    refine ⟨?_, ?_, ?_, ?_⟩
    · rw [hpaths, List.nodup_append]
      refine ⟨h.single, List.nodup_singleton path, ?_⟩
      rintro start hs other ho rfl
      rw [List.mem_singleton] at ho
      exact hc (ho ▸ hs)
    · rw [mem_paths_imply]
      rintro (heq | hm)
      · exact hpath heq.symm
      · exact h.nonempty hm
    · intro longer hl start hne hs
      rw [mem_paths_imply] at hl ⊢
      rcases hl with rfl | hl
      · by_cases heq : start = longer
        · exact .inl heq
        · exact .inr (hstart start hne hs heq)
      · exact .inr (h.closed longer hl start hne hs)
    · rw [hpush]
      intro e he
      rcases List.mem_append.1 he with he | he
      · exact h.admitted e he
      · rw [List.mem_singleton.1 he]
        exact hnew

theorem parents_append_self (hpath : path ≠ []) :
    parents path ++ [path] = (List.range path.length).map fun n => path.take (n + 1) := by
  obtain ⟨n, hn⟩ : ∃ n, path.length = n + 1 :=
    Nat.exists_eq_add_one.2 (List.length_pos_iff.2 hpath)
  have hall : path.take (n + 1) = path := List.take_of_length_le (Nat.le_of_eq hn)
  rw [parents, hn, List.range_succ, List.map_append]
  simp [hall]

/-- Embedding a path with its prefixes keeps embeds sound. -/
theorem Sound.ensure (h : es.Sound admits) (hpath : path ≠ [])
    (hnew : ∀ start, start ≠ [] → start <+: path → admits { path := start }) :
    (es.ensure path).Sound admits := by
  suffices hsteps : ∀ n, n ≤ path.length →
      (((List.range n).map fun k => path.take (k + 1)).foldl Embeds.imply es).Sound admits ∧
        ∀ start, start ≠ [] → start <+: path.take n →
          start ∈ (((List.range n).map fun k => path.take (k + 1)).foldl Embeds.imply es).paths by
    rw [Embeds.ensure, parents_append_self hpath]
    exact (hsteps path.length (Nat.le_refl _)).1
  intro n hn
  induction n with
  | zero =>
    refine ⟨h, fun start hne hs => ?_⟩
    rw [List.take_zero, List.prefix_nil] at hs
    exact absurd hs hne
  | succ n ih =>
    obtain ⟨hsound, hstart⟩ := ih (by omega)
    have htake : path.take (n + 1) = path.take n ++ [path[n]] :=
      List.take_succ_eq_append_getElem (by omega)
    have hne : path.take (n + 1) ≠ [] := by
      rw [htake]
      exact List.concat_ne_nil _ _
    have hcases : ∀ start, start <+: path.take (n + 1) →
        start = path.take (n + 1) ∨ start <+: path.take n := by
      intro start hs
      rwa [htake, List.prefix_concat_iff, ← htake] at hs
    rw [List.range_succ, List.map_append, List.foldl_append]
    refine ⟨hsound.imply (hnew _ hne (List.take_prefix _ _)) hne ?_, ?_⟩
    · intro start hne hs hother
      exact hstart start hne ((hcases start hs).resolve_left hother)
    · intro start hne hs
      rcases hcases start hs with heq | hs
      · exact mem_paths_imply.2 (.inl heq)
      · exact mem_paths_imply.2 (.inr (hstart start hne hs))

theorem mem_modifyFirst {f : Embed → Embed} {l : List Embed} (h : e ∈ modifyFirst path f l) :
    e ∈ l ∨ ∃ d ∈ l, d.path = path ∧ f d = e := by
  induction l with
  | nil => cases h
  | cons d l ih =>
    unfold modifyFirst at h
    split at h
    · rename_i hd
      rcases List.mem_cons.1 h with rfl | h
      · exact .inr ⟨d, List.mem_cons_self, hd, rfl⟩
      · exact .inl (List.mem_cons_of_mem d h)
    · rcases List.mem_cons.1 h with rfl | h
      · exact .inl List.mem_cons_self
      · rcases ih h with h | ⟨c, hc, hfc⟩
        · exact .inl (List.mem_cons_of_mem d h)
        · exact .inr ⟨c, List.mem_cons_of_mem d hc, hfc⟩

/-- What a change leaves alone in every embed, it leaves alone in all of them. -/
theorem map_modify {α : Type} {f : Embed → Embed} {view : Embed → α} (hf : ∀ e, view (f e) = view e) :
    (es.modify path f).list.map view = es.list.map view := by
  suffices h : ∀ l : List Embed, (modifyFirst path f l).map view = l.map view from h es.list
  intro l
  induction l with
  | nil => rfl
  | cons d l ih =>
    unfold modifyFirst
    split
    · rw [List.map_cons, List.map_cons, hf]
    · rw [List.map_cons, List.map_cons, ih]

theorem paths_modify {f : Embed → Embed} (hf : ∀ e, (f e).path = e.path) (es : Embeds)
    (path : List String) : (es.modify path f).paths = es.paths := map_modify hf

/-- A change of an embed is seen at its path alone. -/
theorem get?_modify {f : Embed → Embed} (hf : ∀ e, (f e).path = e.path) (other : List String) :
    (es.modify path f).get? other
      = if other = path then (es.get? other).map f else es.get? other := by
  suffices h : ∀ l : List Embed, (modifyFirst path f l).find? (·.path = other)
      = if other = path then (l.find? (·.path = other)).map f else l.find? (·.path = other) from h es.list
  intro l
  induction l with
  | nil => simp [modifyFirst]
  | cons d l ih =>
    unfold modifyFirst
    by_cases hd : d.path = path
    · rw [if_pos hd]
      by_cases hother : other = path
      · rw [if_pos hother, List.find?_cons_of_pos (by simp [hf, hd, hother]),
          List.find?_cons_of_pos (by simp [hd, hother])]
        rfl
      · have hne : d.path ≠ other := fun heq => hother (heq.symm.trans hd)
        rw [if_neg hother, List.find?_cons_of_neg (by simpa [hf] using hne),
          List.find?_cons_of_neg (by simpa using hne)]
    · rw [if_neg hd]
      by_cases hother : d.path = other
      · have hne : other ≠ path := fun heq => hd (hother.trans heq)
        rw [if_neg hne, List.find?_cons_of_pos (by simpa using hother),
          List.find?_cons_of_pos (by simpa using hother)]
      · rw [List.find?_cons_of_neg (by simpa using hother), ih,
          List.find?_cons_of_neg (by simpa using hother)]

/-- An embed may be changed, if it keeps its path and is admitted still. -/
theorem Sound.modify (h : es.Sound admits) {f : Embed → Embed} (hf : ∀ e, (f e).path = e.path)
    (hadmits : ∀ e, e.path = path → admits e → admits (f e)) : (es.modify path f).Sound admits := by
  have hpaths := paths_modify hf es path
  refine ⟨hpaths ▸ h.single, hpaths ▸ h.nonempty, hpaths ▸ h.closed, fun e he => ?_⟩
  rcases mem_modifyFirst he with he | ⟨d, hd, hdpath, rfl⟩
  · exact h.admitted e he
  · exact hadmits d hdpath (h.admitted d hd)

theorem Sound.empty : Embeds.empty.Sound admits :=
  ⟨.nil, by simp [Embeds.empty, paths], by simp [Embeds.empty, paths], by simp [Embeds.empty]⟩

/-! ## Validation -/

/-- The prefixes of an embedded path need not be added. -/
theorem Sound.ensure_of_mem (h : es.Sound admits) (hpath : path ∈ es.paths) : es.ensure path = es := by
  have himply : ∀ start ∈ parents path ++ [path], es.imply start = es := by
    rw [parents_append_self fun hnil => h.nonempty (hnil ▸ hpath)]
    intro start hs
    obtain ⟨n, hn, rfl⟩ := List.mem_map.1 hs
    refine if_pos (contains_iff.2 (h.closed path hpath _ ?_ (List.take_prefix _ _)))
    rw [List.mem_range] at hn
    exact List.ne_nil_of_length_pos (by rw [List.length_take]; omega)
  unfold Embeds.ensure
  generalize parents path ++ [path] = steps at himply
  induction steps with
  | nil => rfl
  | cons start steps ih =>
    rw [List.foldl_cons, himply start List.mem_cons_self]
    exact ih fun other ho => himply other (List.mem_cons_of_mem start ho)

/-- Paths are accepted if they are single, not empty and not seen before. -/
theorem fault?_eq_none_iff {seen : List (List String)} {l : List Embed} :
    fault? seen l = none ↔
      (l.map Embed.path).Nodup ∧ ∀ path ∈ l.map Embed.path, path ≠ [] ∧ path ∉ seen := by
  induction l generalizing seen with
  | nil => simp [fault?]
  | cons e l ih =>
    unfold fault?
    split
    · rename_i hnil
      exact iff_of_false nofun fun h => (h.2 e.path List.mem_cons_self).1 hnil
    · split
      · rename_i hseen
        exact iff_of_false nofun fun h => (h.2 e.path List.mem_cons_self).2 hseen
      · rw [ih]
        simp only [List.map_cons, List.nodup_cons, List.mem_cons, not_or]
        grind

/-- Sound embeds are what validation makes of them. -/
theorem Sound.validate (h : es.Sound admits) : es.validate = .ok es := by
  have hensure : ∀ paths : List (List String), (∀ path ∈ paths, path ∈ es.paths) →
      paths.foldl Embeds.ensure es = es := by
    intro paths
    induction paths with
    | nil => exact fun _ => rfl
    | cons path paths ih =>
      intro hpaths
      rw [List.foldl_cons, h.ensure_of_mem (hpaths path List.mem_cons_self)]
      exact ih fun other ho => hpaths other (List.mem_cons_of_mem path ho)
  have hnone : fault? [] es.list = none :=
    fault?_eq_none_iff.2 ⟨h.single, fun path hpath => ⟨fun hnil => h.nonempty (hnil ▸ hpath), List.not_mem_nil⟩⟩
  rw [Embeds.validate, hnone]
  exact congrArg Except.ok (hensure es.paths fun _ hp => hp)

end Embeds

end NestedResources
