import NestedResources.Dict

/-!
# Look-ups in maps from lists

What a map that was built from a list has under a key, and where its values are found.
-/
namespace NestedResources

namespace Entries

variable {α β : Type}

/-- Only the last value of a key stays. -/
theorem insert_insert_self (key : String) (value other : α) (entries : List (String × α)) :
    insert key value (insert key other entries) = insert key value entries := by
  induction entries with
  | nil => simp [insert]
  | cons e rest ih => grind [insert]

/-- Two keys may be written in any order. -/
theorem insert_comm {key other : String} (h : key ≠ other) (value otherValue : α)
    (entries : List (String × α)) :
    insert key value (insert other otherValue entries)
      = insert other otherValue (insert key value entries) := by
  induction entries with
  | nil => grind [insert]
  | cons e rest ih => grind [insert]

/-- Keys that are written once have the value that was written. -/
theorem get?_ofList {pairs : List (String × α)} (h : (pairs.map (·.1)).Nodup) (key : String) :
    get? key (ofList pairs) = (pairs.find? (·.1 = key)).map (·.2) := by
  suffices hacc : ∀ acc : List (String × α),
      get? key (pairs.foldl (fun acc e => insert e.1 e.2 acc) acc)
        = ((pairs.find? (·.1 = key)).map (·.2)).or (get? key acc) by
    simpa [ofList] using hacc []
  induction pairs with
  | nil => exact fun acc => rfl
  | cons e rest ih =>
    intro acc
    obtain ⟨hnew, hrest⟩ := List.nodup_cons.1 h
    rw [List.foldl_cons, ih hrest]
    by_cases he : e.1 = key
    · have hnone : rest.find? (·.1 = key) = none := by
        rw [List.find?_eq_none]
        intro d hd
        have hne : d.1 ≠ e.1 := fun hde => hnew (List.mem_map.2 ⟨d, hd, hde⟩)
        simpa [he] using hne
      rw [hnone, List.find?_cons_of_pos (by simpa using he)]
      simp [← he]
    · rw [List.find?_cons_of_neg (by simpa using he), get?_insert_of_ne (Ne.symm he)]

/-- What is written for the items of a list is found under the name of its item. -/
theorem get?_ofList_map {items : List β} {name : β → String} (h : (items.map name).Nodup)
    (value : β → α) (key : String) :
    get? key (ofList (items.map fun b => (name b, value b)))
      = (items.find? (name · = key)).map value := by
  rw [get?_ofList (by simpa [Function.comp_def] using h), List.find?_map, Option.map_map]
  rfl

theorem mem_of_mem_ofList {pairs : List (String × α)} {e : String × α} (h : e ∈ ofList pairs) :
    e ∈ pairs := by
  suffices hacc : ∀ acc : List (String × α),
      e ∈ pairs.foldl (fun acc e => insert e.1 e.2 acc) acc → e ∈ pairs ∨ e ∈ acc from
    (hacc [] h).resolve_right List.not_mem_nil
  clear h
  induction pairs with
  | nil => exact fun acc h => .inr h
  | cons d rest ih =>
    intro acc h
    rcases ih _ h with hrest | hacc
    · exact .inl (List.mem_cons_of_mem d hrest)
    · rcases mem_insert hacc with rfl | hacc
      · exact .inl List.mem_cons_self
      · exact .inr hacc

/-- A key that is never written with another value from some place on has this value. -/
theorem get?_ofList_append_of_mem (earlier : List (String × α)) {pairs : List (String × α)} {key : String}
    {value : α} (hmem : (key, value) ∈ pairs) (h : ∀ e ∈ pairs, e.1 = key → e.2 = value) :
    get? key (ofList (earlier ++ pairs)) = some value := by
  suffices hacc : ∀ acc : List (String × α), (key, value) ∈ pairs ∨ get? key acc = some value →
      get? key (pairs.foldl (fun acc e => insert e.1 e.2 acc) acc) = some value by
    rw [ofList, List.foldl_append]
    exact hacc _ (.inl hmem)
  clear hmem
  induction pairs with
  | nil => exact fun acc hacc => hacc.resolve_left List.not_mem_nil
  | cons d rest ih =>
    intro acc hacc
    refine ih (fun e he => h e (List.mem_cons_of_mem d he)) _ ?_
    dsimp only
    by_cases hd : d.1 = key
    · rw [hd, get?_insert_self, h d List.mem_cons_self hd]
      exact .inr rfl
    · rw [get?_insert_of_ne (Ne.symm hd)]
      refine hacc.imp_left fun hm => (List.mem_cons.1 hm).resolve_left ?_
      rintro rfl
      exact hd rfl

/-- A key that is never written with another value has this value. -/
theorem get?_ofList_of_mem {pairs : List (String × α)} {key : String} {value : α}
    (hmem : (key, value) ∈ pairs) (h : ∀ e ∈ pairs, e.1 = key → e.2 = value) :
    get? key (ofList pairs) = some value := get?_ofList_append_of_mem [] hmem h

/-- Keys are told apart, so that what does not pass a test leaves nothing under its key. -/
theorem get?_filter {entries : List (String × α)} (h : Ordered entries) (test : α → Bool)
    (key : String) : get? key (entries.filter fun e => test e.2) = (get? key entries).filter test := by
  have hfiltered : Ordered (entries.filter fun e => test e.2) := List.Pairwise.filter _ h
  ext value
  rw [get?_eq_some_iff hfiltered, List.mem_filter, Option.filter_eq_some_iff, get?_eq_some_iff h]

end Entries

/-- Maps have the same values that pass, if they have them under every key. -/
theorem Dict.filter_values_eq {α : Type} {d e : Dict α} {test check : α → Bool}
    (h : ∀ key, (d.get? key).filter test = (e.get? key).filter check) :
    d.values.filter test = e.values.filter check := by
  have hentries : d.entries.filter (fun e => test e.2) = e.entries.filter fun e => check e.2 := by
    refine Entries.Ordered.ext (d.ordered.filter _) (e.ordered.filter _) fun key => ?_
    rw [Entries.get?_filter d.ordered, Entries.get?_filter e.ordered]
    exact h key
  simpa [values, List.filter_map, Function.comp_def] using congrArg (List.map (·.2)) hentries

theorem Dict.mem_values {α : Type} {d : Dict α} {value : α} :
    value ∈ d.values ↔ ∃ key, d.get? key = some value := by
  simp [values, get?_eq_some_iff]

end NestedResources
