/-!
# Finite maps with text keys

A map is an association list in strictly ascending key order, so a map has one representation and
two maps with the same look-ups are equal (`Dict.ext_get?`).
-/
namespace NestedResources

/-! ## Association lists -/
namespace Entries

variable {α β : Type}

/-- The value stored under a key. -/
def get? (key : String) : List (String × α) → Option α
  | [] => none
  | (k, v) :: rest => if k = key then some v else get? key rest

/-- Stores a value in key order, over any value the key had. -/
def insert (key : String) (value : α) : List (String × α) → List (String × α)
  | [] => [(key, value)]
  | (k, v) :: rest =>
    if key < k then (key, value) :: (k, v) :: rest
    else if k = key then (key, value) :: rest
    else (k, v) :: insert key value rest

/-- Drops a key. -/
def erase (key : String) (entries : List (String × α)) : List (String × α) :=
  entries.filter fun e => decide (e.1 ≠ key)

/-- Inserts pairs from left to right, so the last value of a repeated key stays. -/
def ofList (pairs : List (String × α)) : List (String × α) :=
  pairs.foldl (fun acc e => insert e.1 e.2 acc) []

/-- Strictly ascending keys. -/
def Ordered (entries : List (String × α)) : Prop :=
  entries.Pairwise fun a b => a.1 < b.1

@[simp] theorem get?_nil (key : String) : get? key ([] : List (String × α)) = none := rfl

@[simp] theorem get?_insert_self (key : String) (value : α) (entries : List (String × α)) :
    get? key (insert key value entries) = some value := by
  induction entries with
  | nil => simp [insert, get?]
  | cons e rest ih => grind [insert, get?]

theorem get?_insert_of_ne {key other : String} (h : other ≠ key) (value : α)
    (entries : List (String × α)) : get? other (insert key value entries) = get? other entries := by
  induction entries with
  | nil => simp [insert, get?, h.symm]
  | cons e rest ih => grind [insert, get?]

@[simp] theorem get?_erase_self (key : String) (entries : List (String × α)) :
    get? key (erase key entries) = none := by
  induction entries with
  | nil => rfl
  | cons e rest ih => grind [erase, get?]

theorem get?_erase_of_ne {key other : String} (h : other ≠ key) (entries : List (String × α)) :
    get? other (erase key entries) = get? other entries := by
  induction entries with
  | nil => rfl
  | cons e rest ih => grind [erase, get?]

theorem mem_of_get? {key : String} {value : α} {entries : List (String × α)}
    (h : get? key entries = some value) : (key, value) ∈ entries := by
  induction entries with
  | nil => simp at h
  | cons e rest ih => grind [get?]

theorem mem_insert {key : String} {value : α} {entries : List (String × α)} {e : String × α}
    (h : e ∈ insert key value entries) : e = (key, value) ∨ e ∈ entries := by
  induction entries with
  | nil => simpa [insert] using h
  | cons a rest ih => grind [insert]

theorem Ordered.nil : Ordered ([] : List (String × α)) := List.Pairwise.nil

theorem Ordered.insert {entries : List (String × α)} (h : Ordered entries) (key : String)
    (value : α) : Ordered (insert key value entries) := by
  induction entries with
  | nil => simp [Entries.insert, Ordered]
  | cons a rest ih =>
    obtain ⟨k, v⟩ := a
    obtain ⟨hd, tl⟩ := List.pairwise_cons.1 h
    unfold Entries.insert
    split
    · rename_i hlt
      refine List.pairwise_cons.2 ⟨?_, h⟩
      intro b hb
      rcases List.mem_cons.1 hb with rfl | hb
      · exact hlt
      · exact String.lt_trans hlt (hd b hb)
    · split
      · rename_i heq
        subst heq
        exact List.pairwise_cons.2 ⟨hd, tl⟩
      · rename_i hnlt hne
        refine List.pairwise_cons.2 ⟨?_, ih tl⟩
        intro b hb
        rcases mem_insert hb with rfl | hb
        · exact Std.lt_of_le_of_ne (String.not_lt.1 hnlt) hne
        · exact hd b hb

theorem Ordered.erase {entries : List (String × α)} (h : Ordered entries) (key : String) :
    Ordered (erase key entries) := List.Pairwise.filter _ h

theorem Ordered.ofList (pairs : List (String × α)) : Ordered (ofList pairs) := by
  unfold Entries.ofList
  suffices h : ∀ acc : List (String × α), Ordered acc →
      Ordered (pairs.foldl (fun acc e => Entries.insert e.1 e.2 acc) acc) from h [] Ordered.nil
  induction pairs with
  | nil => exact fun acc h => h
  | cons e rest ih => exact fun acc h => ih _ (h.insert e.1 e.2)

theorem Ordered.map {entries : List (String × α)} (h : Ordered entries) (f : String → α → β) :
    Ordered (entries.map fun e => (e.1, f e.1 e.2)) := by
  refine List.pairwise_map.2 ?_
  exact h

theorem get?_eq_some_iff {entries : List (String × α)} (h : Ordered entries) {key : String}
    {value : α} : get? key entries = some value ↔ (key, value) ∈ entries := by
  refine ⟨mem_of_get?, ?_⟩
  induction entries with
  | nil => simp
  | cons a rest ih =>
    obtain ⟨k, v⟩ := a
    obtain ⟨hd, tl⟩ := List.pairwise_cons.1 h
    intro hm
    rcases List.mem_cons.1 hm with he | hm
    · cases he
      simp [get?]
    · have hlt : k < key := hd _ hm
      have hne : k ≠ key := fun he => String.lt_irrefl _ (he ▸ hlt)
      simp [get?, hne, ih tl hm]

theorem Ordered.ext {l m : List (String × α)} (hl : Ordered l) (hm : Ordered m)
    (h : ∀ key, get? key l = get? key m) : l = m := by
  have hmem : ∀ e, e ∈ l ↔ e ∈ m := fun e => by
    rw [← get?_eq_some_iff hl, ← get?_eq_some_iff hm, h]
  clear h
  induction l generalizing m with
  | nil =>
    cases m with
    | nil => rfl
    | cons b m => exact absurd ((hmem b).2 List.mem_cons_self) (by simp)
  | cons a l ih =>
    cases m with
    | nil => exact absurd ((hmem a).1 List.mem_cons_self) (by simp)
    | cons b m =>
      obtain ⟨hla, hl'⟩ := List.pairwise_cons.1 hl
      obtain ⟨hmb, hm'⟩ := List.pairwise_cons.1 hm
      have hab : a = b := by
        rcases List.mem_cons.1 ((hmem a).1 List.mem_cons_self) with h1 | h1
        · exact h1
        · rcases List.mem_cons.1 ((hmem b).2 List.mem_cons_self) with h2 | h2
          · exact h2.symm
          · exact absurd (String.lt_trans (hmb a h1) (hla b h2)) (String.lt_irrefl _)
      subst hab
      congr 1
      refine ih hl' hm' fun e => ⟨fun he => ?_, fun he => ?_⟩
      · rcases List.mem_cons.1 ((hmem e).1 (List.mem_cons_of_mem _ he)) with h1 | h1
        · subst h1
          exact absurd (hla _ he) (String.lt_irrefl _)
        · exact h1
      · rcases List.mem_cons.1 ((hmem e).2 (List.mem_cons_of_mem _ he)) with h1 | h1
        · subst h1
          exact absurd (hmb _ he) (String.lt_irrefl _)
        · exact h1

end Entries

/-! ## Maps -/

/-- A finite map from text to `α`. -/
structure Dict (α : Type) where
  entries : List (String × α)
  ordered : Entries.Ordered entries

namespace Dict

variable {α β : Type}

/-- The map without keys. -/
def empty : Dict α := ⟨[], .nil⟩

instance : Inhabited (Dict α) := ⟨empty⟩
instance : EmptyCollection (Dict α) := ⟨empty⟩

def get? (d : Dict α) (key : String) : Option α := Entries.get? key d.entries

def contains (d : Dict α) (key : String) : Bool := (d.get? key).isSome

def insert (d : Dict α) (key : String) (value : α) : Dict α :=
  ⟨Entries.insert key value d.entries, d.ordered.insert key value⟩

def erase (d : Dict α) (key : String) : Dict α := ⟨Entries.erase key d.entries, d.ordered.erase key⟩

/-- The last value of a repeated key stays. -/
def ofList (pairs : List (String × α)) : Dict α := ⟨Entries.ofList pairs, .ofList pairs⟩

/-- Writes every entry of `new` over `d`. -/
def union (d new : Dict α) : Dict α := new.entries.foldl (fun acc e => acc.insert e.1 e.2) d

def map (f : α → β) (d : Dict α) : Dict β :=
  ⟨d.entries.map fun e => (e.1, f e.2), d.ordered.map fun _ v => f v⟩

def keys (d : Dict α) : List String := d.entries.map (·.1)

def values (d : Dict α) : List α := d.entries.map (·.2)

def size (d : Dict α) : Nat := d.entries.length

def isEmpty (d : Dict α) : Bool := d.entries.isEmpty

@[simp] theorem get?_empty (key : String) : (empty : Dict α).get? key = none := rfl

@[simp] theorem get?_insert_self (d : Dict α) (key : String) (value : α) :
    (d.insert key value).get? key = some value := Entries.get?_insert_self ..

theorem get?_insert_of_ne (d : Dict α) {key other : String} (h : other ≠ key) (value : α) :
    (d.insert key value).get? other = d.get? other := Entries.get?_insert_of_ne h ..

@[simp] theorem get?_erase_self (d : Dict α) (key : String) : (d.erase key).get? key = none :=
  Entries.get?_erase_self ..

theorem get?_erase_of_ne (d : Dict α) {key other : String} (h : other ≠ key) :
    (d.erase key).get? other = d.get? other := Entries.get?_erase_of_ne h ..

theorem get?_eq_some_iff {d : Dict α} {key : String} {value : α} :
    d.get? key = some value ↔ (key, value) ∈ d.entries := Entries.get?_eq_some_iff d.ordered

@[ext] theorem ext_get? {d e : Dict α} (h : ∀ key, d.get? key = e.get? key) : d = e := by
  obtain ⟨l, hl⟩ := d
  obtain ⟨m, hm⟩ := e
  congr
  exact hl.ext hm h

end Dict

end NestedResources
