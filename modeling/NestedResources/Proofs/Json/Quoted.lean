import Mathlib.Tactic.SplitIfs
import NestedResources.Store.Diff

/-!
# Texts in quotes

An escaped character is told from what follows it, so a quoted text ends where its quote does. Objects of
texts are therefore told apart by their own text (`Link.text_injective`).
-/
namespace NestedResources

namespace Json

/-- The value of a lower-case hexadecimal digit. -/
def hexValue (c : Char) : Nat := if c.toNat < 'a'.toNat then c.toNat - '0'.toNat else c.toNat - 'a'.toNat + 10

/-- The character that a letter stands for after a backslash. -/
def unescapeLetter? (c : Char) : Option Char :=
  if c = '"' then some '"'
  else if c = '\\' then some '\\'
  else if c = 'n' then some '\n'
  else if c = 'r' then some '\r'
  else if c = 't' then some '\t'
  else if c = 'b' then some '\x08'
  else if c = 'f' then some '\x0c'
  else none

/-- The first character of an escaped text, with what follows it. -/
def unescape? : List Char → Option (Char × List Char)
  | [] => none
  | c :: rest =>
    if c = '\\' then
      match rest with
      | 'u' :: '0' :: '0' :: a :: b :: more => some (Char.ofNat (16 * hexValue a + hexValue b), more)
      | x :: more => (unescapeLetter? x).map (·, more)
      | [] => none
    else some (c, rest)

theorem hexValue_hexDigit : ∀ n < 16, hexValue (hexDigit n) = n := by decide

/-- An escaped character is read back. -/
theorem unescape?_escapeChar (c : Char) (rest : List Char) :
    unescape? (escapeChar c ++ rest) = some (c, rest) := by
  unfold escapeChar
  split_ifs with hquote hbackslash hnewline hreturn htab hback hfeed hcontrol
  · rw [hquote]; rfl
  · rw [hbackslash]; rfl
  · rw [hnewline]; rfl
  · rw [hreturn]; rfl
  · rw [htab]; rfl
  · rw [hback]; rfl
  · rw [hfeed]; rfl
  · have hvalue : 16 * hexValue (hexDigit (c.toNat / 16)) + hexValue (hexDigit (c.toNat % 16)) = c.toNat := by
      rw [hexValue_hexDigit _ (by omega), hexValue_hexDigit _ (by omega)]
      omega
    change some (Char.ofNat _, rest) = _
    rw [hvalue, Char.ofNat_toNat]
  · exact if_neg hbackslash

/-- A text ends at the first quote that is not escaped. -/
theorem escaped_inj {cs ds xs ys : List Char}
    (h : cs.flatMap escapeChar ++ '"' :: xs = ds.flatMap escapeChar ++ '"' :: ys) : cs = ds ∧ xs = ys := by
  have hends : ∀ (d : Char) (zs ws : List Char), '"' :: zs ≠ escapeChar d ++ ws := by
    intro d zs ws heq
    have hread := congrArg unescape? heq
    rw [unescape?_escapeChar] at hread
    cases hread
    cases heq
  induction cs generalizing ds with
  | nil =>
    cases ds with
    | nil => exact ⟨rfl, (List.cons.inj h).2⟩
    | cons d ds =>
      rw [List.flatMap_cons, List.append_assoc] at h
      exact absurd h (hends _ _ _)
  | cons c cs ih =>
    cases ds with
    | nil =>
      rw [List.flatMap_cons, List.append_assoc] at h
      exact absurd h.symm (hends _ _ _)
    | cons d ds =>
      rw [List.flatMap_cons, List.flatMap_cons, List.append_assoc, List.append_assoc] at h
      have hread := congrArg unescape? h
      rw [unescape?_escapeChar, unescape?_escapeChar, Option.some.injEq, Prod.mk.injEq] at hread
      obtain ⟨rfl, hrest⟩ := hread
      obtain ⟨rfl, hends'⟩ := ih hrest
      exact ⟨rfl, hends'⟩

theorem toList_quote (s : String) : (quote s).toList = '"' :: (s.toList.flatMap escapeChar ++ ['"']) := by
  simp [quote]

/-- What follows a quoted text is told from it. -/
theorem quote_append_inj {s t : String} {xs ys : List Char}
    (h : (quote s).toList ++ xs = (quote t).toList ++ ys) : s = t ∧ xs = ys := by
  rw [toList_quote, toList_quote, List.cons_append, List.cons_append, List.append_assoc, List.append_assoc]
    at h
  obtain ⟨hchars, hrest⟩ := escaped_inj (List.cons.inj h).2
  exact ⟨String.toList_injective hchars, hrest⟩

/-- The members of an object of texts. -/
def textMembers (pairs : List (String × String)) : List (String × Json) := pairs.map fun e => (e.1, str e.2)

theorem toList_compactMembers_cons (key value : String) (pairs : List (String × String)) :
    (compactMembers (textMembers ((key, value) :: pairs))).toList =
      (quote key).toList ++ ':' :: ((quote value).toList ++
        if pairs = [] then [] else ',' :: (compactMembers (textMembers pairs)).toList) := by
  cases pairs with
  | nil => simp [textMembers, compactMembers, compact]
  | cons e pairs => simp [textMembers, compactMembers, compact]

/-- Members are told apart by their text up to the brace that ends them. -/
theorem compactMembers_inj {ps qs : List (String × String)}
    (h : (compactMembers (textMembers ps)).toList ++ ['\x7d'] =
      (compactMembers (textMembers qs)).toList ++ ['\x7d']) : ps = qs := by
  have hstarts : ∀ (e : String × String) (es : List (String × String)),
      ['\x7d'] ≠ (compactMembers (textMembers (e :: es))).toList ++ ['\x7d'] := by
    intro e es heq
    rw [toList_compactMembers_cons, toList_quote] at heq
    cases (List.cons.inj heq).1
  induction ps generalizing qs with
  | nil =>
    cases qs with
    | nil => rfl
    | cons q qs => exact absurd h (hstarts q qs)
  | cons p ps ih =>
    cases qs with
    | nil => exact absurd h.symm (hstarts p ps)
    | cons q qs =>
      obtain ⟨k, v⟩ := p
      obtain ⟨l, w⟩ := q
      rw [toList_compactMembers_cons, toList_compactMembers_cons, List.append_assoc, List.append_assoc] at h
      obtain ⟨rfl, hvalue⟩ := quote_append_inj h
      rw [List.cons_append, List.cons_append, List.append_assoc, List.append_assoc] at hvalue
      obtain ⟨rfl, hrest⟩ := quote_append_inj (List.cons.inj hvalue).2
      -- The lists end together, since a brace is no comma.
      cases ps with
      | nil =>
        cases qs with
        | nil => rfl
        | cons q qs => cases (List.cons.inj hrest).1
      | cons p ps =>
        cases qs with
        | nil => cases (List.cons.inj hrest).1
        | cons q qs => rw [ih (List.cons.inj hrest).2]

end Json

/-- Links are told apart by their texts. -/
theorem Link.text_injective : Function.Injective Link.text := by
  intro a b h
  have htext : ∀ l : Link, (Link.text l).toList =
      '\x7b' :: ((Json.compactMembers (Json.textMembers l.entries)).toList ++ ['\x7d']) := by
    intro l
    rw [Link.text, Json.ofDict, Json.compact]
    simp [Dict.map, Json.textMembers]
  have hchars := congrArg String.toList h
  rw [htext, htext] at hchars
  have hentries := Json.compactMembers_inj (List.cons.inj hchars).2
  obtain ⟨l, hl⟩ := a
  obtain ⟨m, hm⟩ := b
  cases hentries
  rfl

end NestedResources
