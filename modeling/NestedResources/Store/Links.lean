import NestedResources.Dict

/-!
# Association tables

A link pairs columns with identity keys. A table of links is a set: the links stand in strictly
ascending lexicographic order, so a set has one representation (`LinkTable.ext_mem`).
-/
namespace NestedResources

/-- One row of an association table: columns with identity keys. -/
abbrev Link := Dict String

namespace Link

/-- The columns and keys of a link in turn. -/
def words (pairs : List (String × String)) : List String := pairs.flatMap fun p => [p.1, p.2]

theorem words_injective {l m : List (String × String)} (h : words l = words m) : l = m := by
  induction l generalizing m with
  | nil => cases m <;> simp_all [words]
  | cons p l ih =>
    cases m with
    | nil => simp [words] at h
    | cons q m =>
      simp only [words, List.flatMap_cons, List.cons_append, List.nil_append, List.cons.injEq] at h
      obtain ⟨h₁, h₂, h₃⟩ := h
      rw [Prod.ext h₁ h₂, ih h₃]

theorem ext_words {a b : Link} (h : words a.entries = words b.entries) : a = b := by
  obtain ⟨l, hl⟩ := a
  obtain ⟨m, hm⟩ := b
  cases words_injective h
  rfl

/-- Lexicographic order of columns and keys. -/
instance : LT Link := ⟨fun a b => words a.entries < words b.entries⟩

instance (a b : Link) : Decidable (a < b) :=
  inferInstanceAs (Decidable (words a.entries < words b.entries))

instance : DecidableEq Link := fun a b =>
  if h : words a.entries = words b.entries then .isTrue (ext_words h)
  else .isFalse fun e => h (e ▸ rfl)

theorem lt_trans {a b c : Link} (h : a < b) (k : b < c) : a < c := List.lt_trans h k

theorem lt_irrefl (a : Link) : ¬ a < a := List.lt_irrefl (words a.entries)

theorem eq_of_not_lt {a b : Link} (h : ¬ a < b) (k : ¬ b < a) : a = b :=
  ext_words (List.le_antisymm k h)

end Link

/-- A set of links. -/
structure LinkTable where
  links : List Link
  ordered : links.Pairwise (· < ·)

namespace LinkTable

def empty : LinkTable := ⟨[], .nil⟩

instance : Inhabited LinkTable := ⟨empty⟩

/-- Puts a link in its place, unless it is there already. -/
def insertLink (link : Link) : List Link → List Link
  | [] => [link]
  | l :: ls => if link < l then link :: l :: ls else if l < link then l :: insertLink link ls else l :: ls

theorem mem_insertLink {link x : Link} {ls : List Link} :
    x ∈ insertLink link ls ↔ x = link ∨ x ∈ ls := by
  induction ls with
  | nil => simp [insertLink]
  | cons l ls ih =>
    unfold insertLink
    split
    · simp
    · split
      · grind
      · rename_i h k
        have := Link.eq_of_not_lt h k
        grind

theorem pairwise_insertLink (link : Link) {ls : List Link} (h : ls.Pairwise (· < ·)) :
    (insertLink link ls).Pairwise (· < ·) := by
  induction ls with
  | nil => simp [insertLink]
  | cons l ls ih =>
    obtain ⟨hl, hls⟩ := List.pairwise_cons.1 h
    unfold insertLink
    split
    · rename_i hlt
      refine List.pairwise_cons.2 ⟨fun x hx => ?_, h⟩
      rcases List.mem_cons.1 hx with rfl | hx
      · exact hlt
      · exact Link.lt_trans hlt (hl x hx)
    · split
      · rename_i hlt
        refine List.pairwise_cons.2 ⟨fun x hx => ?_, ih hls⟩
        rcases mem_insertLink.1 hx with rfl | hx
        · exact hlt
        · exact hl x hx
      · exact h

def insert (t : LinkTable) (link : Link) : LinkTable :=
  ⟨insertLink link t.links, pairwise_insertLink link t.ordered⟩

def filter (t : LinkTable) (keep : Link → Bool) : LinkTable :=
  ⟨t.links.filter keep, t.ordered.filter keep⟩

def contains (t : LinkTable) (link : Link) : Bool := link ∈ t.links

def erase (t : LinkTable) (link : Link) : LinkTable := t.filter (· ≠ link)

def ofList (links : List Link) : LinkTable := links.foldl insert empty

instance : Membership Link LinkTable := ⟨fun t link => link ∈ t.links⟩

@[simp] theorem mem_insert {t : LinkTable} {link x : Link} : x ∈ t.insert link ↔ x = link ∨ x ∈ t :=
  mem_insertLink

@[simp] theorem mem_erase {t : LinkTable} {link x : Link} : x ∈ t.erase link ↔ x ∈ t ∧ x ≠ link :=
  List.mem_filter.trans (by simp [Membership.mem])

theorem ext_mem {s t : LinkTable} (h : ∀ link, link ∈ s ↔ link ∈ t) : s = t := by
  obtain ⟨ls, hs⟩ := s
  obtain ⟨ms, ht⟩ := t
  suffices e : ls = ms by subst e; rfl
  replace h : ∀ link, link ∈ ls ↔ link ∈ ms := h
  revert ms
  induction ls with
  | nil =>
    intro ms _ h
    cases ms with
    | nil => rfl
    | cons m ms => exact absurd ((h m).2 List.mem_cons_self) (by simp)
  | cons l ls ih =>
    intro ms ht h
    cases ms with
    | nil => exact absurd ((h l).1 List.mem_cons_self) (by simp)
    | cons m ms =>
      obtain ⟨hl, hs'⟩ := List.pairwise_cons.1 hs
      obtain ⟨hm, ht'⟩ := List.pairwise_cons.1 ht
      have e : l = m := by
        rcases List.mem_cons.1 ((h l).1 List.mem_cons_self) with e | e
        · exact e
        · rcases List.mem_cons.1 ((h m).2 List.mem_cons_self) with k | k
          · exact k.symm
          · exact absurd (Link.lt_trans (hm l e) (hl m k)) (Link.lt_irrefl _)
      subst e
      congr 1
      refine ih hs' ms ht' fun x => ⟨fun hx => ?_, fun hx => ?_⟩
      · rcases List.mem_cons.1 ((h x).1 (List.mem_cons_of_mem _ hx)) with e | e
        · exact absurd (e ▸ hl x hx) (Link.lt_irrefl _)
        · exact e
      · rcases List.mem_cons.1 ((h x).2 (List.mem_cons_of_mem _ hx)) with e | e
        · exact absurd (e ▸ hm x hx) (Link.lt_irrefl _)
        · exact e

end LinkTable

end NestedResources
