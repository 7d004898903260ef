import Mathlib.Data.List.Nodup
import NestedResources.Query.Params

/-!
# Keys of parameters

The keys of parameters, and their values, when there are more pairs behind and when all keys are changed.
-/
namespace NestedResources.Params

variable {params : Params} {more : List (String × String)} {key : String}

theorem append_append (params : Params) (more others : List (String × String)) :
    (params.append more).append others = params.append (more ++ others) :=
  congrArg mk (List.append_assoc params.pairs more others)

theorem all_append : (params.append more).all key = params.all key ++ all ⟨more⟩ key := by
  rw [append, all, List.filter_append, List.map_append, all, all]

theorem first?_append : (params.append more).first? key = (params.first? key).or (first? ⟨more⟩ key) := by
  rw [append, first?, List.find?_append, first?, first?]
  cases params.pairs.find? fun e => decide (e.1 = key) <;> rfl

theorem all_eq_nil (h : key ∉ params.pairs.map (·.1)) : params.all key = [] := by
  have hnone : params.pairs.filter (fun e => decide (e.1 = key)) = [] :=
    List.filter_eq_nil_iff.2 fun pair hpair => by
      simpa using fun heq => h (List.mem_map.2 ⟨pair, hpair, heq⟩)
  rw [all, hnone, List.map_nil]

theorem first?_eq_none (h : key ∉ params.pairs.map (·.1)) : params.first? key = none := by
  refine Option.map_eq_none_iff.2 (List.find?_eq_none.2 fun pair hpair => ?_)
  simpa using fun heq => h (List.mem_map.2 ⟨pair, hpair, heq⟩)

/-- More pairs bring their own keys, behind those that are there. -/
theorem exists_keys_append (params : Params) (more : List (String × String)) :
    ∃ added, (params.append more).keys = params.keys ++ added ∧ ∀ key ∈ added, key ∈ more.map (·.1) := by
  rw [append, keys, List.foldl_append, ← keys]
  generalize params.keys = done
  induction more generalizing done with
  | nil => exact ⟨[], by simp, by simp⟩
  | cons pair more ih =>
    rw [List.foldl_cons]
    split
    · obtain ⟨added, hkeys, hadded⟩ := ih done
      exact ⟨added, hkeys, fun key hkey => List.mem_cons_of_mem _ (hadded key hkey)⟩
    · obtain ⟨added, hkeys, hadded⟩ := ih (done ++ [pair.1])
      refine ⟨pair.1 :: added, by rw [hkeys]; simp, fun key hkey => ?_⟩
      rcases List.mem_cons.1 hkey with rfl | hkey
      · exact List.mem_cons_self
      · exact List.mem_cons_of_mem _ (hadded key hkey)

theorem mem_pairs_of_mem_keys (h : key ∈ params.keys) : key ∈ params.pairs.map (·.1) := by
  obtain ⟨added, hkeys, hadded⟩ := exists_keys_append ⟨[]⟩ params.pairs
  have hadded' : params.keys = added := hkeys
  exact hadded key (hadded' ▸ h)

/-- New keys stand behind those that are there. -/
theorem keys_append_of_new (hnew : ∀ pair ∈ more, pair.1 ∉ params.keys)
    (hsingle : (more.map (·.1)).Nodup) : (params.append more).keys = params.keys ++ more.map (·.1) := by
  rw [append, keys, List.foldl_append, ← keys]
  generalize params.keys = done at hnew
  induction more generalizing done with
  | nil => simp
  | cons pair more ih =>
    obtain ⟨hpair, hmore⟩ := List.nodup_cons.1 hsingle
    rw [List.foldl_cons, if_neg (hnew pair List.mem_cons_self), ih hmore, List.append_assoc]
    · rfl
    · intro other hother hmem
      rcases List.mem_append.1 hmem with hmem | hmem
      · exact hnew other (List.mem_cons_of_mem pair hother) hmem
      · exact hpair (List.mem_map.2 ⟨other, hother, List.mem_singleton.1 hmem⟩)

variable {f : String → String}

/-- The same pairs with other keys. -/
def mapKeys (f : String → String) (params : Params) : Params := ⟨params.pairs.map fun pair => (f pair.1, pair.2)⟩

theorem keys_mapKeys (hf : f.Injective) : (params.mapKeys f).keys = params.keys.map f := by
  suffices h : ∀ (pairs : List (String × String)) (done : List String),
      (pairs.map fun pair => (f pair.1, pair.2)).foldl
          (fun acc e => if e.1 ∈ acc then acc else acc ++ [e.1]) (done.map f)
        = (pairs.foldl (fun acc e => if e.1 ∈ acc then acc else acc ++ [e.1]) done).map f from
    h params.pairs []
  intro pairs
  induction pairs with
  | nil => exact fun done => rfl
  | cons pair pairs ih =>
    intro done
    simp only [List.map_cons, List.foldl_cons, List.mem_map_of_injective hf]
    split
    · exact ih done
    · rw [← ih, List.map_append, List.map_singleton]

theorem all_mapKeys (hf : f.Injective) (key : String) : (params.mapKeys f).all (f key) = params.all key := by
  rw [mapKeys, all, List.filter_map, List.map_map]
  refine congrArg (List.map _) (List.filter_congr fun pair _ => ?_)
  simp [hf.eq_iff]

end NestedResources.Params
